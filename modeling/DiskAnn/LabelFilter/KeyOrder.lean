import DiskAnn.Data.Lex
import DiskAnn.LabelFilter.KeyCodec

/-! # What the keys tell apart

A key is the field, a separator, and the text of the value. Nothing keeps the separator out of fields
and texts. Numbers are written so that their texts have the order of the numbers, up to the two zeros.
-/

namespace DiskAnn.LabelFilter

open List F64

/-! ## Bytes of a text -/

theorem intoBytes_append (s t : String) : intoBytes (s ++ t) = intoBytes s ++ intoBytes t := by
  simp [intoBytes]

theorem intoBytes_ofList (chars : List Char) :
    intoBytes (String.ofList chars) = chars.flatMap String.utf8EncodeChar := by
  rw [intoBytes, String.toByteArray_ofList, utf8Encode, data_toByteArray]

/-- The byte of a hexadecimal digit. -/
def hexByte (digit : ℕ) : UInt8 := UInt8.ofNat (digit.digitChar).toNat

theorem utf8EncodeChar_digitChar : ∀ digit < 16, String.utf8EncodeChar (digit.digitChar) =
    [hexByte digit] := by
  decide

theorem intoBytes_hex16 (n : BitVec 64) :
    intoBytes (hex16 n) = (bigEndian 16 16 n.toNat).map hexByte := by
  have digits : hex16 n = String.ofList ((bigEndian 16 16 n.toNat).map Nat.digitChar) := rfl
  rw [digits, intoBytes_ofList, flatMap_map, ← flatMap_pure_eq_map]
  refine flatMap_congr fun digit mem => ?_
  exact utf8EncodeChar_digitChar digit (lt_of_mem_bigEndian (by decide) mem)

theorem hex16_lt_iff {m n : BitVec 64} : intoBytes (hex16 m) < intoBytes (hex16 n) ↔ m < n := by
  have order : ∀ a < 16, ∀ b < 16, (hexByte a < hexByte b ↔ a < b) := by decide
  have distinct : ∀ a < 16, ∀ b < 16, (hexByte a = hexByte b ↔ a = b) := by decide
  rw [intoBytes_hex16, intoBytes_hex16, map_bigEndian_lt_iff (by decide) order distinct]
  have all : 16 ^ 16 = 2 ^ 64 := by decide
  rw [all, Nat.mod_eq_of_lt m.isLt, Nat.mod_eq_of_lt n.isLt, BitVec.lt_def]

theorem hex16_inj {m n : BitVec 64} : hex16 m = hex16 n ↔ m = n := by
  refine ⟨fun same => ?_, congrArg hex16⟩
  rcases m.lt_trichotomy n with below | equal | above
  · exact absurd (same ▸ hex16_lt_iff.mpr below) (List.lt_irrefl _)
  · exact equal
  · exact absurd (same ▸ hex16_lt_iff.mpr above) (List.lt_irrefl _)

/-! ## Numbers -/

theorem toNat_flip (n : BitVec 64) :
    (n ^^^ 0x8000000000000000).toNat = (n.toNat + 2 ^ 63) % 2 ^ 64 := by
  have low := Nat.xor_mod_two_pow (a := n.toNat) (b := 2 ^ 63) (n := 63)
  have high := Nat.xor_div_two_pow (a := n.toNat) (b := 2 ^ 63) (n := 63)
  have bit : n.toNat / 2 ^ 63 = 0 ∨ n.toNat / 2 ^ 63 = 1 := by omega
  rw [Nat.mod_self, Nat.xor_zero] at low
  change n.toNat ^^^ 2 ^ 63 = _
  rcases bit with bit | bit
  · rw [bit] at high
    change _ = 1 at high
    omega
  · rw [bit] at high
    change _ = 0 at high
    omega

namespace DefaultKeyCodec

variable {i j : BitVec 64} {x y : F64}

theorem encodeI64_lt_iff : encodeI64 i < encodeI64 j ↔ i.toInt < j.toInt := by
  rw [BitVec.lt_def, encodeI64, encodeI64, toNat_flip, toNat_flip, BitVec.toInt_eq_toNat_cond,
    BitVec.toInt_eq_toNat_cond]
  split <;> split <;> omega

theorem toNat_encodeF64 (x : F64) : ((encodeF64 x).toNat : ℤ) =
    if x.bits.toNat < 2 ^ 63 then x.key + 2 ^ 63 else x.key + 2 ^ 63 - 1 := by
  have sign : x.bits >>> 63 = 0 ↔ x.bits.toNat < 2 ^ 63 := by
    rw [← BitVec.toNat_inj, BitVec.toNat_ushiftRight, Nat.shiftRight_eq_div_pow]
    change _ / _ = 0 ↔ _
    omega
  unfold encodeF64 key magnitude
  by_cases pos : x.bits.toNat < 2 ^ 63
  · rw [if_pos (sign.mpr pos), toNat_flip]
    omega
  · rw [if_neg (mt sign.mp pos), BitVec.toNat_not]
    omega

/-- Floats are ordered as numbers, with the negative zero before the other one. -/
theorem encodeF64_lt_iff :
    encodeF64 x < encodeF64 y ↔ x.key < y.key ∨ x = .negZero ∧ y = .zero := by
  have zeros : (x = .negZero ↔ x.bits.toNat = 2 ^ 63) ∧ (y = .zero ↔ y.bits.toNat = 0) := by
    constructor
    · rw [mk.injEq, ← BitVec.toNat_inj]
      rfl
    · rw [mk.injEq, ← BitVec.toNat_inj]
      rfl
  have hx := toNat_encodeF64 x
  have hy := toNat_encodeF64 y
  rw [BitVec.lt_def, zeros.1, zeros.2, ← Nat.cast_lt (α := ℤ), hx, hy]
  unfold key magnitude
  split <;> split <;> omega

theorem encodeF64_inj : encodeF64 x = encodeF64 y ↔ x = y := by
  refine ⟨fun same => ?_, congrArg encodeF64⟩
  have hx := toNat_encodeF64 x
  have hy := toNat_encodeF64 y
  rw [same, hy] at hx
  rw [mk.injEq, ← BitVec.toNat_inj]
  unfold key magnitude at hx
  split at hx <;> split at hx <;> omega

theorem encodeI64_inj : encodeI64 i = encodeI64 j ↔ i = j :=
  BitVec.xor_left_inj _

/-! ## Values -/

/-- The text of a value: its type and the value itself. -/
def tagged : AttributeValue → String
  | .integer i => typePrefixInteger ++ hex16 (encodeI64 i)
  | .real f => typePrefixFloat ++ hex16 (encodeF64 f)
  | .string s => typePrefixString ++ s
  | .bool b => typePrefixBool ++ if b then "1" else "0"
  | .empty => typePrefixString ++ ""

theorem encodeFieldValueKey_tagged (field : String) (value : AttributeValue) :
    encodeFieldValueKey field value = intoBytes (field ++ fieldSeparator ++ tagged value) := by
  cases value <;> exact congrArg intoBytes (String.append_assoc ..)

theorem encodeFieldValueKey_lt_iff (field : String) {v w : AttributeValue} :
    encodeFieldValueKey field v < encodeFieldValueKey field w ↔
      intoBytes (tagged v) < intoBytes (tagged w) := by
  rw [encodeFieldValueKey_tagged, encodeFieldValueKey_tagged, intoBytes_append _ (tagged v),
    intoBytes_append _ (tagged w), append_lt_append_left_iff]

theorem tagged_integer_lt_iff :
    intoBytes (tagged (.integer i)) < intoBytes (tagged (.integer j)) ↔ i.toInt < j.toInt := by
  rw [tagged, tagged, intoBytes_append, intoBytes_append, append_lt_append_left_iff, hex16_lt_iff,
    encodeI64_lt_iff]

theorem tagged_real_lt_iff : intoBytes (tagged (.real x)) < intoBytes (tagged (.real y)) ↔
    x.key < y.key ∨ x = .negZero ∧ y = .zero := by
  rw [tagged, tagged, intoBytes_append, intoBytes_append, append_lt_append_left_iff, hex16_lt_iff,
    encodeF64_lt_iff]

/-- The first character of a text. -/
def tag : AttributeValue → Char
  | .integer _ => 'I'
  | .real _ => 'F'
  | .string _ | .empty => 'S'
  | .bool _ => 'B'

theorem tagged_toList (value : AttributeValue) : ∃ rest, (tagged value).toList = tag value :: rest := by
  cases value <;> rw [tagged, String.toList_append] <;> exact ⟨_, rfl⟩

theorem tagged_inj {v w : AttributeValue} (same : tagged v = tagged w) :
    v = w ∨ v = .empty ∧ w = .string "" ∨ v = .string "" ∧ w = .empty := by
  obtain ⟨_, first⟩ := tagged_toList v
  obtain ⟨_, second⟩ := tagged_toList w
  have tags : tag v = tag w := by
    rw [same, second] at first
    exact (cons.inj first).1.symm
  cases v with
  | integer i =>
    cases w with
    | integer j =>
      have texts := hex16_inj.mp (String.append_right_inj _ |>.mp same)
      exact .inl (congrArg _ (encodeI64_inj.mp texts))
    | _ => cases tags
  | real x =>
    cases w with
    | real y =>
      have texts := hex16_inj.mp (String.append_right_inj _ |>.mp same)
      exact .inl (congrArg _ (encodeF64_inj.mp texts))
    | _ => cases tags
  | bool b =>
    cases w with
    | bool c =>
      refine .inl (congrArg _ ?_)
      revert same
      cases b <;> cases c <;> decide
    | _ => cases tags
  | string s =>
    cases w with
    | string t => exact .inl (congrArg _ (String.append_right_inj _ |>.mp same))
    | empty => exact .inr (.inr ⟨congrArg _ (String.append_right_inj _ |>.mp same), rfl⟩)
    | _ => cases tags
  | empty =>
    cases w with
    | string t => exact .inr (.inl ⟨rfl, congrArg _ (String.append_right_inj _ |>.mp same).symm⟩)
    | empty => exact .inl rfl
    | _ => cases tags

theorem not_mem_hex16 (n : BitVec 64) : '\x00' ∉ (hex16 n).toList := by
  have digits : hex16 n = String.ofList ((bigEndian 16 16 n.toNat).map Nat.digitChar) := rfl
  have visible : ∀ digit < 16, digit.digitChar ≠ '\x00' := by decide
  rw [digits, String.toList_ofList, mem_map]
  rintro ⟨digit, mem, null⟩
  exact visible digit (lt_of_mem_bigEndian (by decide) mem) null

/-- Only the text of a string can hold the separator. -/
theorem eq_string_of_mem {value : AttributeValue} (separated : '\x00' ∈ (tagged value).toList) :
    ∃ s, value = .string s := by
  cases value with
  | string s => exact ⟨s, rfl⟩
  | integer i => simp [tagged, typePrefixInteger, not_mem_hex16] at separated
  | real x => simp [tagged, typePrefixFloat, not_mem_hex16] at separated
  | bool b => cases b <;> simp [tagged, typePrefixBool] at separated
  | empty => simp [tagged, typePrefixString] at separated

end DefaultKeyCodec

/-! ## Pairs of attributes -/

namespace Attribute

variable {a b : Attribute}

open DefaultKeyCodec

def key (a : Attribute) : List UInt8 := encodeFieldValueKey a.flattenedFieldName a.value

/-- Keys of one field compare as the numbers do. -/
def ComparesAs (a b : Attribute) : Prop :=
  match a.value, b.value with
  | .integer i, .integer j => a.key < b.key ↔ i.toInt < j.toInt
  | .real x, .real y => x.isFinite = true → y.isFinite = true → (a.key < b.key ↔ x.lt y = true)
  | _, _ => True

/-- What keys are for. -/
structure Faithful (a b : Attribute) : Prop where
  distinct : a ≠ b → a.key ≠ b.key
  notReverse : ∀ docId, a.key ≠ reverseKey docId ∧ b.key ≠ reverseKey docId
  order : a.flattenedFieldName = b.flattenedFieldName → a.ComparesAs b ∧ b.ComparesAs a

/-- Attributes that keys do not tell apart, or order in a way that the numbers do not have. -/
inductive Clash : Attribute → Attribute → Prop
  | empty (field : String) : Clash ⟨field, .empty⟩ ⟨field, .string ""⟩
  | zeros (field : String) : Clash ⟨field, .real .negZero⟩ ⟨field, .real .zero⟩
  | separator (field rest : String) (value : AttributeValue) :
      Clash ⟨field, .string (rest ++ fieldSeparator ++ tagged value)⟩
        ⟨field ++ fieldSeparator ++ typePrefixString ++ rest, value⟩

/-- Two attributes with one key, where the field of the second is no shorter. -/
theorem Clash.of_texts {rest : List Char} (other : a ≠ b)
    (field : b.flattenedFieldName.toList = a.flattenedFieldName.toList ++ rest)
    (texts : '\x00' :: (tagged a.value).toList = rest ++ '\x00' :: (tagged b.value).toList) :
    Clash a b ∨ Clash b a := by
  obtain ⟨f, v⟩ := a
  obtain ⟨g, w⟩ := b
  cases rest with
  | nil =>
    obtain rfl : g = f := String.toList_inj.mp (by simpa using field)
    have same : tagged v = tagged w := String.toList_inj.mp (by simpa using texts)
    rcases tagged_inj same with rfl | ⟨rfl, rfl⟩ | ⟨rfl, rfl⟩
    · exact absurd rfl other
    · exact .inl (.empty g)
    · exact .inr (.empty g)
  | cons c rest =>
    rw [cons_append, List.cons.injEq] at texts
    obtain ⟨rfl, texts⟩ := texts
    -- The separator behind the shorter field ends up in the text of a string.
    obtain ⟨s, rfl⟩ : ∃ s, v = .string s := eq_string_of_mem (by simp [texts])
    cases rest with
    | nil => simp [tagged, typePrefixString] at texts
    | cons d rest =>
      obtain ⟨rfl, text⟩ : 'S' = d ∧ s.toList = rest ++ '\x00' :: (tagged w).toList := by
        simpa [tagged, typePrefixString] using texts
      have value : s = String.ofList rest ++ fieldSeparator ++ tagged w := by
        apply String.toList_inj.mp
        simp [text, fieldSeparator]
      have name : g = f ++ fieldSeparator ++ typePrefixString ++ String.ofList rest := by
        apply String.toList_inj.mp
        simpa [fieldSeparator, typePrefixString] using field
      rw [value, name]
      exact .inl (.separator f (String.ofList rest) w)

theorem clash_of_key_eq (other : a ≠ b) (same : a.key = b.key) : Clash a b ∨ Clash b a := by
  rw [key, key, encodeFieldValueKey_tagged, encodeFieldValueKey_tagged, intoBytes_inj] at same
  have chars := congrArg String.toList same
  simp only [String.toList_append, append_assoc] at chars
  rcases append_eq_append_iff.mp chars with ⟨rest, field, texts⟩ | ⟨rest, field, texts⟩
  · exact Clash.of_texts other field texts
  · exact (Clash.of_texts other.symm field texts).symm

theorem ComparesAs.of_not_clash (apart : ¬Clash a b)
    (field : a.flattenedFieldName = b.flattenedFieldName) : a.ComparesAs b := by
  obtain ⟨f, v⟩ := a
  obtain ⟨g, w⟩ := b
  obtain rfl : f = g := field
  unfold ComparesAs
  split <;> rename_i hv hw
  · obtain rfl : v = _ := hv
    obtain rfl : w = _ := hw
    exact (encodeFieldValueKey_lt_iff f).trans tagged_integer_lt_iff
  · obtain rfl : v = _ := hv
    obtain rfl : w = _ := hw
    intro finite finite'
    rw [lt_iff (isNan_of_isFinite finite) (isNan_of_isFinite finite')]
    refine ((encodeFieldValueKey_lt_iff f).trans tagged_real_lt_iff).trans (or_iff_left ?_)
    rintro ⟨rfl, rfl⟩
    exact apart (.zeros f)
  · trivial

theorem Clash.not_faithful (clash : Clash a b) : ¬Faithful a b := by
  intro faithful
  cases clash with
  | empty field => exact faithful.distinct (by simp) rfl
  | zeros field =>
    have order := (faithful.order rfl).1 (by decide) (by decide)
    have below : encodeFieldValueKey field (.real .negZero) < encodeFieldValueKey field (.real .zero) :=
      (encodeFieldValueKey_lt_iff field).mpr (tagged_real_lt_iff.mpr (.inr ⟨rfl, rfl⟩))
    exact absurd (order.mp below) (by decide)
  | separator field rest value =>
    refine faithful.distinct (fun same => ?_) ?_
    · have names := congrArg (fun a : Attribute => a.flattenedFieldName.length) same
      have tag : typePrefixString.length = 1 := by decide
      simp only [String.length_append] at names
      omega
    · rw [key, key, encodeFieldValueKey_tagged, encodeFieldValueKey_tagged]
      simp only [tagged, String.append_assoc]

theorem Faithful.symm (faithful : Faithful a b) : Faithful b a where
  distinct other := (faithful.distinct other.symm).symm
  notReverse docId := (faithful.notReverse docId).symm
  order field := (faithful.order field.symm).symm

/-- The keys of two attributes are right unless the attributes clash. -/
theorem faithful_iff (a b : Attribute) : Faithful a b ↔ ¬Clash a b ∧ ¬Clash b a := by
  constructor
  · exact fun faithful => ⟨fun clash => clash.not_faithful faithful,
      fun clash => clash.not_faithful faithful.symm⟩
  · rintro ⟨first, second⟩
    refine ⟨fun other same => ?_, fun docId => ?_, fun field => ?_⟩
    · exact (clash_of_key_eq other same).elim first second
    · exact ⟨encodeFieldValueKey_ne_reverseKey _ _ docId, encodeFieldValueKey_ne_reverseKey _ _ docId⟩
    · exact ⟨.of_not_clash first field, .of_not_clash second field.symm⟩

/-- The field `a` with the text `b`, separator, `Sc` has the key of a field with a separator. -/
theorem key_shared : (⟨"a", .string "b\x00Sc"⟩ : Attribute) ≠ ⟨"a\x00Sb", .string "c"⟩ ∧
    key ⟨"a", .string "b\x00Sc"⟩ = key ⟨"a\x00Sb", .string "c"⟩ := by
  decide +kernel

end Attribute

end DiskAnn.LabelFilter
