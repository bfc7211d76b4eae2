import DiskAnn.Num.Binary

/-! # IEEE 754 binary32 values

A value is its bit pattern. Comparisons are false when an operand is not a number; numbers compare
as the integers `key`, which gives both zeros one place. Arithmetic is that of `Binary.binary32`; a
result that is not a number has one bit pattern here, which no comparison tells from the others.
-/

namespace DiskAnn

open Binary

structure F32 where
  bits : BitVec 32
  deriving DecidableEq, Repr

namespace F32

variable {x y : F32}

/-- The bit pattern without the sign. -/
def magnitude (x : F32) : ℕ := x.bits.toNat % 2 ^ 31

def isNan (x : F32) : Bool := 0x7f800000 < x.magnitude

/-- The place of a number in the order. -/
def key (x : F32) : ℤ := if x.bits.toNat < 2 ^ 31 then x.magnitude else -x.magnitude

def lt (x y : F32) : Bool := !x.isNan && !y.isNan && x.key < y.key

def ge (x y : F32) : Bool := !x.isNan && !y.isNan && y.key ≤ x.key

/-- `==` -/
def eq (x y : F32) : Bool := !x.isNan && !y.isNan && x.key == y.key

def zero : F32 := ⟨0⟩

theorem lt_eq_true : x.lt y = true ↔ x.isNan = false ∧ y.isNan = false ∧ x.key < y.key := by
  simp [lt, and_assoc]

theorem ge_eq_true : x.ge y = true ↔ x.isNan = false ∧ y.isNan = false ∧ y.key ≤ x.key := by
  simp [ge, and_assoc]

theorem ge_trans {z : F32} (first : x.ge y = true) (second : y.ge z = true) : x.ge z = true := by
  rw [ge_eq_true] at first second ⊢
  exact ⟨first.1, second.2.1, second.2.2.trans first.2.2⟩

theorem eq_eq_true : x.eq y = true ↔ x.isNan = false ∧ y.isNan = false ∧ x.key = y.key := by
  simp [eq, and_assoc]

variable (hx : x.isNan = false)
include hx

variable (hy : y.isNan = false)
include hy

theorem lt_iff : x.lt y = true ↔ x.key < y.key := by
  simp [lt, hx, hy]

theorem ge_iff : x.ge y = true ↔ y.key ≤ x.key := by
  simp [ge, hx, hy]

theorem ge_eq_false_iff :
    x.ge y = false ↔ x.key < y.key := by
  rw [← Bool.not_eq_true, ge_iff hx hy, not_le]

theorem eq_iff : x.eq y = true ↔ x.key = y.key := by
  simp [eq, hx, hy]

omit hx hy

theorem eq_eq_false_of_lt {z : F32} (below : x.lt z = true) (above : y.lt z = false) :
    x.eq y = false := by
  refine eq_false_of_ne_true fun same => ?_
  simp only [eq, lt, Bool.and_eq_true, beq_iff_eq]
    at same below
  simp [lt, same.1.2, below.1.2, ← same.2, below.2] at above

/-! ## Arithmetic -/

def one : F32 := ⟨0x3f800000⟩

/-- `f32::MAX` -/
def max : F32 := ⟨0x7f7fffff⟩

/-- `f32::INFINITY` -/
def infinity : F32 := ⟨0x7f800000⟩

/-- `f32::is_finite` -/
def isFinite (x : F32) : Bool := x.magnitude < 0x7f800000

def decode (x : F32) : Binary.Value := ⟨2 ^ 31 ≤ x.bits.toNat, x.magnitude⟩

def encode (v : Binary.Value) : F32 :=
  ⟨.ofNat 32 (v.magnitude + if v.negative then 2 ^ 31 else 0)⟩

@[simp] theorem decode_magnitude (x : F32) : x.decode.magnitude = x.magnitude := rfl

theorem encode_decode (x : F32) : encode x.decode = x := by
  obtain ⟨bits⟩ := x
  simp only [encode, decode, magnitude, F32.mk.injEq, decide_eq_true_eq]
  apply BitVec.eq_of_toNat_eq
  rw [BitVec.toNat_ofNat]
  split <;> omega

theorem decode_encode {v : Value} (bound : v.magnitude < 2 ^ 31) :
    (encode v).decode = v := by
  obtain ⟨negative, m⟩ := v
  simp only [decode, encode, magnitude] at bound ⊢
  cases negative <;> simp <;> omega

theorem isNan_eq (x : F32) : x.isNan = x.decode.isNan .binary32 := rfl

theorem key_eq (x : F32) :
    x.key = if x.decode.negative then -(x.magnitude : ℤ) else x.magnitude := by
  simp only [key, decode, decide_eq_true_eq]
  split <;> split <;> omega

def mul (x y : F32) : F32 := encode (x.decode.mul .binary32 y.decode)

def div (x y : F32) : F32 := encode (x.decode.div .binary32 y.decode)

def add (x y : F32) : F32 := encode (x.decode.add .binary32 y.decode)

/-- `f32::min`: the other operand if one is not a number. -/
def minNum (x y : F32) : F32 :=
  if x.isNan then y else if y.isNan then x else if y.lt x then y else x

/-- `f32::max`: the other operand if one is not a number. -/
def maxNum (x y : F32) : F32 :=
  if x.isNan then y else if y.isNan then x else if x.lt y then y else x

theorem mul_one (number : x.isNan = false) : x.mul one = x := by
  have unit : one.decode.units .binary32 = Format.binary32.scale := by decide +kernel
  rw [mul, Value.mul_one (isNan_eq x ▸ number) rfl (by decide) unit, encode_decode]

theorem one_mul (number : x.isNan = false) : one.mul x = x := by
  rw [mul, Value.mul_comm]
  exact mul_one number

theorem magnitude_of_key_pos (pos : 0 < x.key) :
    x.decode.negative = false ∧ (x.magnitude : ℤ) = x.key := by
  rw [key_eq] at pos ⊢
  split at pos <;> simp_all
  omega

theorem key_le_of_number (number : x.isNan = false) : x.key ≤ 0x7f800000 := by
  have : x.magnitude ≤ 0x7f800000 := by simpa [isNan] using number
  rw [key_eq]
  split <;> omega

theorem lt_max_iff (finite : x.isFinite = true) : x.lt max = true ↔ x ≠ max := by
  have bound : x.magnitude < 0x7f800000 := by simpa [isFinite] using finite
  have number : x.isNan = false := by simp [isNan]; omega
  have max_key : max.key = 0x7f7fffff := by decide
  rw [lt_iff number (by decide)]
  constructor
  · rintro less rfl
    omega
  · intro ne
    rcases lt_or_ge x.key 0x7f7fffff with less | greater
    · exact less
    · obtain ⟨pos, same⟩ := magnitude_of_key_pos (x := x) (by omega)
      have decoded : x.decode = max.decode := by
        rw [show max.decode = ⟨false, 0x7f7fffff⟩ by decide, ← pos,
          show 0x7f7fffff = x.magnitude by omega]
        rfl
      exact absurd (by rw [← encode_decode x, decoded, encode_decode]) ne

/-- Multiplication by a finite factor above one moves a normal number away from zero. -/
theorem key_lt_mul (hx : one.key ≤ x.key) (fx : x.key < infinity.key) (hy : one.key < y.key)
    (fy : y.key < infinity.key) : (x.mul y).isNan = false ∧ x.key < (x.mul y).key := by
  have one_key : one.key = 0x3f800000 := by decide
  have infinity_key : infinity.key = 0x7f800000 := by decide
  have infinity_eq : Format.binary32.infinity = 0x7f800000 := by decide
  obtain ⟨xpos, xmag⟩ := magnitude_of_key_pos (x := x) (by omega)
  obtain ⟨ypos, ymag⟩ := magnitude_of_key_pos (x := y) (by omega)
  have finite_x : x.decode.magnitude < Format.binary32.infinity := by
    rw [decode_magnitude]
    omega
  have finite_y : y.decode.magnitude < Format.binary32.infinity := by
    rw [decode_magnitude]
    omega
  -- the factor is at least the successor of one, which is more than a step at a normal number
  have factor : (2 ^ 23 + 1) * 2 ^ 126 ≤ y.decode.units .binary32 := by
    have : units 23 0x3f800001 ≤ units 23 y.magnitude :=
      (units_strictMono 23).monotone (by omega)
    rwa [show units 23 0x3f800001 = (2 ^ 23 + 1) * 2 ^ 126 by decide +kernel] at this
  have step : units 23 (x.magnitude + 1) * 2 ^ 23 ≤
      x.decode.units .binary32 * (2 ^ 23 + 1) := units_succ_le (by omega)
  have grown : x.magnitude + 1 ≤ (x.decode.mul .binary32 y.decode).magnitude := by
    refine Value.le_magnitude_mul finite_x finite_y (by omega) ?_
    calc units 23 (x.magnitude + 1) * Format.binary32.scale
        = units 23 (x.magnitude + 1) * 2 ^ 23 * 2 ^ 126 := by
          rw [show Format.binary32.scale = 2 ^ 23 * 2 ^ 126 by decide +kernel,
            Nat.mul_assoc]
      _ ≤ x.decode.units .binary32 * (2 ^ 23 + 1) * 2 ^ 126 := Nat.mul_le_mul_right _ step
      _ = x.decode.units .binary32 * ((2 ^ 23 + 1) * 2 ^ 126) := Nat.mul_assoc _ _ _
      _ ≤ x.decode.units .binary32 * y.decode.units .binary32 := Nat.mul_le_mul_left _ factor
  have product := Value.mul_of_finite finite_x finite_y
  have bounded : (x.decode.mul .binary32 y.decode).magnitude ≤ 0x7f800000 := by
    rw [product]
    exact Nat.min_le_right _ _
  have decoded : (x.mul y).decode = x.decode.mul .binary32 y.decode :=
    decode_encode (by omega)
  have magnitude_eq : (x.mul y).magnitude = (x.decode.mul .binary32 y.decode).magnitude :=
    congrArg Value.magnitude decoded
  have pos : (x.mul y).decode.negative = false := by
    rw [decoded, product, Value.rounded, xpos, ypos, Bool.xor_false]
  refine ⟨by simp [isNan]; omega, ?_⟩
  rw [key_eq (x.mul y), pos]
  simp only [Bool.false_eq_true, if_false]
  omega

include hx hy

/-- A quotient is a number unless both operands are zero or both are infinite. -/
theorem isNan_div (zeros : x.magnitude ≠ 0 ∨ y.magnitude ≠ 0)
    (infinities : x.magnitude ≠ 0x7f800000 ∨ y.magnitude ≠ 0x7f800000) :
    (x.div y).isNan = false := by
  have bounded : (x.decode.div .binary32 y.decode).magnitude ≤ 0x7f800000 :=
    Value.magnitude_div_le hx hy zeros infinities
  have decoded : (x.div y).decode = x.decode.div .binary32 y.decode := decode_encode (by omega)
  have : (x.div y).magnitude = (x.decode.div .binary32 y.decode).magnitude :=
    congrArg Value.magnitude decoded
  simp [isNan]
  omega

theorem key_minNum :
    (x.minNum y).isNan = false ∧ (x.minNum y).key = min x.key y.key := by
  simp only [minNum, hx, hy, Bool.false_eq_true, if_false, lt_iff hy hx]
  split
  · exact ⟨hy, by omega⟩
  · exact ⟨hx, by omega⟩

theorem key_maxNum :
    (x.maxNum y).isNan = false ∧ (x.maxNum y).key = Max.max x.key y.key := by
  simp only [maxNum, hx, hy, Bool.false_eq_true, if_false, lt_iff hx hy]
  split
  · exact ⟨hy, by omega⟩
  · exact ⟨hx, by omega⟩

/-- `as f32` from a `usize` -/
def ofUsize (n : ℕ) : F32 := encode (.ofNat .binary32 n)

/-- `as usize` -/
def toUsize (x : F32) : ℕ := x.decode.toNat .binary32 (2 ^ 64 - 1)

end F32

end DiskAnn
