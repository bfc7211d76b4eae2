import Mathlib

/-! # Bytes of numbers, and buffers written in place

Little-endian encodings of a given width, and lists in which a part is written over. -/

namespace List

section Overwrite

variable {α : Type*}

/-- `data` in place of what stands from `start` on; what reaches beyond the end is appended. -/
def overwrite (l : List α) (start : ℕ) (data : List α) : List α :=
  l.take start ++ data ++ l.drop (start + data.length)

theorem length_overwrite {l : List α} {start : ℕ} {data : List α}
    (within : start + data.length ≤ l.length) : (l.overwrite start data).length = l.length := by
  simp only [overwrite, length_append, length_take, length_drop]
  omega

theorem le_length_overwrite {l : List α} {start : ℕ} (within : start ≤ l.length) (data : List α) :
    start + data.length ≤ (l.overwrite start data).length := by
  simp only [overwrite, length_append, length_take]
  omega

@[simp] theorem overwrite_nil (l : List α) (start : ℕ) : l.overwrite start [] = l := by
  simp [overwrite]

theorem overwrite_length (l data : List α) : l.overwrite l.length data = l ++ data := by
  simp [overwrite]

/-- What is written next continues what was written before. -/
theorem overwrite_overwrite {l : List α} {start : ℕ} (within : start ≤ l.length) (a b : List α) :
    (l.overwrite start a).overwrite (start + a.length) b = l.overwrite start (a ++ b) := by
  have length : (l.take start ++ a).length = start + a.length := by
    rw [length_append, length_take, min_eq_left within]
  simp only [overwrite]
  rw [← length, take_left, drop_append, length, length_append, drop_drop]
  have past : (l.take start ++ a).drop (start + a.length + b.length) = [] :=
    drop_eq_nil_of_le (by omega)
  have shift : start + a.length + (start + a.length + b.length - (start + a.length)) =
      start + (a.length + b.length) := by omega
  rw [past, shift, nil_append, append_assoc _ a b]

theorem set_eq_overwrite {l : List α} {i : ℕ} {a : α} (within : i < l.length) :
    l.set i a = l.overwrite i [a] := by
  rw [set_eq_take_append_cons_drop, if_pos within, overwrite, append_assoc]
  rfl

theorem getElem?_overwrite {l : List α} {start : ℕ} {data : List α}
    (within : start + data.length ≤ l.length) (i : ℕ) : (l.overwrite start data)[i]? =
      if start ≤ i ∧ i < start + data.length then data[i - start]? else l[i]? := by
  have length : (l.take start).length = start := by
    rw [length_take]
    omega
  rw [overwrite, append_assoc, getElem?_append, length]
  split <;> rename_i before
  · rw [if_neg (by omega), getElem?_take, if_pos before]
  · rw [getElem?_append]
    split <;> rename_i inside
    · rw [if_pos (by omega)]
    · have shift : start + data.length + (i - start - data.length) = i := by omega
      rw [if_neg (by omega), getElem?_drop, shift]

end Overwrite

end List

namespace Bytes

open List

/-- The `width` lowest bytes of a number, the least significant one first. -/
def toLe : ℕ → ℕ → List UInt8
  | 0, _ => []
  | width + 1, value => UInt8.ofNat value :: toLe width (value / 256)

/-- The number that the bytes stand for, the least significant one first. -/
def ofLe : List UInt8 → ℕ
  | [] => 0
  | byte :: bytes => byte.toNat + 256 * ofLe bytes

@[simp] theorem length_toLe (width value : ℕ) : (toLe width value).length = width := by
  induction width generalizing value with
  | zero => rfl
  | succ width ih => rw [toLe, length_cons, ih]

theorem ofLe_toLe {width value : ℕ} (fits : value < 256 ^ width) : ofLe (toLe width value) = value := by
  induction width generalizing value with
  | zero =>
    rw [pow_zero, Nat.lt_one_iff] at fits
    rw [fits]
    rfl
  | succ width ih =>
    have rest : value / 256 < 256 ^ width := Nat.div_lt_of_lt_mul (pow_succ' 256 width ▸ fits)
    rw [toLe, ofLe, ih rest]
    exact value.mod_add_div 256

theorem toLe_mod (width value : ℕ) : toLe width (value % 256 ^ width) = toLe width value := by
  induction width generalizing value with
  | zero => rfl
  | succ width ih =>
    rw [toLe, pow_succ', Nat.mod_mul_right_div_self, ih]
    congr 1
    refine UInt8.toNat_inj.mp ?_
    exact Nat.mod_mul_right_mod ..

/-- The bytes of a list of 32-bit words. -/
def ofWords (words : List ℕ) : List UInt8 := words.flatMap (toLe 4)

/-- The first `count` words that the bytes stand for. -/
def toWords : ℕ → List UInt8 → List ℕ
  | 0, _ => []
  | count + 1, bytes => ofLe (bytes.take 4) :: toWords count (bytes.drop 4)

@[simp] theorem ofWords_nil : ofWords [] = [] := rfl

@[simp] theorem ofWords_cons (word : ℕ) (words : List ℕ) :
    ofWords (word :: words) = toLe 4 word ++ ofWords words := flatMap_cons

@[simp] theorem length_ofWords (words : List ℕ) : (ofWords words).length = words.length * 4 := by
  induction words with
  | nil => rfl
  | cons word words ih => rw [ofWords_cons, length_append, length_toLe, ih, length_cons, Nat.succ_mul, Nat.add_comm]

theorem toWords_ofWords {words : List ℕ} (fit : ∀ word ∈ words, word < 2 ^ 32) :
    toWords words.length (ofWords words) = words := by
  induction words with
  | nil => rfl
  | cons word words ih =>
    have length := length_toLe 4 word
    have first : ofLe (toLe 4 word) = word := ofLe_toLe (fit word mem_cons_self)
    have rest := ih fun other mem => fit other (mem_cons_of_mem word mem)
    rw [length_cons, ofWords_cons, toWords, take_left' length, drop_left' length, first, rest]

end Bytes
