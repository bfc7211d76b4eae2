import DiskAnn.LabelFilter.Attribute

/-! # Keys of the inverted index

`key_codec.rs`: the key of a field and a value, and the key under which the keys of a document are
kept.
-/

namespace DiskAnn.LabelFilter

/-- `into_bytes` -/
def intoBytes (s : String) : List UInt8 := s.toByteArray.data.toList

theorem intoBytes_inj {s t : String} : intoBytes s = intoBytes t ↔ s = t := by
  refine ⟨fun same => ?_, congrArg intoBytes⟩
  refine String.toByteArray_inj.mp (ByteArray.ext ?_)
  exact Array.toList_inj.mp same

/-- `{:016x}` -/
def hex16 (n : BitVec 64) : String :=
  String.ofList ((List.range 16).map fun i => Nat.digitChar (n.toNat / 16 ^ (15 - i) % 16))

def fieldSeparator : String := "\x00"

def typePrefixInteger : String := "I"

def typePrefixFloat : String := "F"

def typePrefixString : String := "S"

def typePrefixBool : String := "B"

namespace DefaultKeyCodec

def encodeI64 (n : BitVec 64) : BitVec 64 := n ^^^ 0x8000000000000000

def encodeF64 (f : F64) : BitVec 64 :=
  if f.bits >>> 63 = 0 then f.bits ^^^ 0x8000000000000000 else ~~~f.bits

def formatIntegerValue (field : String) (value : BitVec 64) : List UInt8 :=
  intoBytes (field ++ fieldSeparator ++ typePrefixInteger ++ hex16 (encodeI64 value))

def formatFloatValue (field : String) (value : F64) : List UInt8 :=
  intoBytes (field ++ fieldSeparator ++ typePrefixFloat ++ hex16 (encodeF64 value))

def formatStringValue (field value : String) : List UInt8 :=
  intoBytes (field ++ fieldSeparator ++ typePrefixString ++ value)

def formatBoolValue (field : String) (value : Bool) : List UInt8 :=
  intoBytes (field ++ fieldSeparator ++ typePrefixBool ++ if value then "1" else "0")

def encodeFieldValueKey (field : String) : AttributeValue → List UInt8
  | .integer i => formatIntegerValue field i
  | .real f => formatFloatValue field f
  | .string s => formatStringValue field s
  | .bool b => formatBoolValue field b
  | .empty => formatStringValue field ""

/-- The text of a key. -/
theorem encodeFieldValueKey_eq (field : String) (value : AttributeValue) :
    ∃ rest, encodeFieldValueKey field value = intoBytes (field ++ fieldSeparator ++ rest) := by
  cases value <;> exact ⟨_, congrArg intoBytes (String.append_assoc ..)⟩

end DefaultKeyCodec

/-- The key of what is kept for a document. -/
def reverseKey (docId : ℕ) : List UInt8 := intoBytes ("@R:" ++ docId.repr)

theorem reverseKey_inj {a b : ℕ} : reverseKey a = reverseKey b ↔ a = b := by
  rw [reverseKey, reverseKey, intoBytes_inj, String.append_right_inj, Nat.repr_inj]

theorem encodeFieldValueKey_ne_reverseKey (field : String) (value : AttributeValue) (docId : ℕ) :
    DefaultKeyCodec.encodeFieldValueKey field value ≠ reverseKey docId := by
  obtain ⟨rest, text⟩ := DefaultKeyCodec.encodeFieldValueKey_eq field value
  rw [text, reverseKey, ne_eq, intoBytes_inj]
  intro same
  have separator : '\x00' ∈ (field ++ fieldSeparator ++ rest).toList := by
    simp [fieldSeparator]
  rw [same, String.toList_append, List.mem_append] at separator
  rcases separator with first | digit
  · simp at first
  · rw [Nat.repr, String.toList_ofList] at digit
    cases Nat.isDigit_of_mem_toDigits (by decide) (by decide) digit

end DiskAnn.LabelFilter
