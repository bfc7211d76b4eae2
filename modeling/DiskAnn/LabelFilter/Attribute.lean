import DiskAnn.Num.F64

/-! # Attributes

JSON values as serde_json has them, the attribute values of `attribute.rs` with their own equality,
and the conversion of one to the other.
-/

namespace DiskAnn.LabelFilter

/-! ## JSON -/

/-- A JSON number: integers are kept apart from floats. -/
inductive Number
  | posInt (n : BitVec 64)
  | negInt (n : BitVec 64)
  | float (f : F64)
  deriving DecidableEq, Repr

namespace Number

/-- `as_i64` -/
def asI64 : Number → Option (BitVec 64)
  | posInt n => if n.toNat < 2 ^ 63 then some n else none
  | negInt n => some n
  | float _ => none

/-- `as_f64` -/
def asF64 : Number → Option F64
  | posInt n => some (.ofU64 n)
  | negInt n => some (.ofI64 n)
  | float f => some f

end Number

/-- A JSON value. -/
inductive Value
  | null
  | bool (v : Bool)
  | number (n : Number)
  | string (s : String)
  | array (values : List Value)
  | object (members : List (String × Value))

/-! ## Attribute values -/

inductive AttributeValue
  | empty
  | bool (v : Bool)
  | integer (i : BitVec 64)
  | real (f : F64)
  | string (s : String)
  deriving DecidableEq, Repr

namespace AttributeValue

/-- `to_bits_helper`: one bit pattern for all that is not a number, and one for both zeros. -/
def toBitsHelper (f : F64) : BitVec 64 :=
  if f.isNan then F64.nan.bits else if f.isZero then F64.zero.bits else f.bits

/-- The equality of `PartialEq`. -/
def eq : AttributeValue → AttributeValue → Bool
  | bool v, bool w => v == w
  | integer i, integer j => i == j
  | real f, real g => toBitsHelper f == toBitsHelper g
  | string s, string t => s == t
  | empty, empty => true
  | _, _ => false

/-- The representative of the values that are equal to a value. -/
def canonical : AttributeValue → AttributeValue
  | real f => real ⟨toBitsHelper f⟩
  | v => v

theorem eq_iff {v w : AttributeValue} : v.eq w = true ↔ v.canonical = w.canonical := by
  cases v <;> cases w
  case empty.empty => exact iff_of_true rfl rfl
  case bool.bool a b =>
    show (a == b) = true ↔ bool a = bool b
    rw [beq_iff_eq, bool.injEq]
  case integer.integer i j =>
    show (i == j) = true ↔ integer i = integer j
    rw [beq_iff_eq, integer.injEq]
  case real.real f g =>
    show (toBitsHelper f == toBitsHelper g) = true ↔ real ⟨toBitsHelper f⟩ = real ⟨toBitsHelper g⟩
    rw [beq_iff_eq, real.injEq, F64.mk.injEq]
  case string.string s t =>
    show (s == t) = true ↔ string s = string t
    rw [beq_iff_eq, string.injEq]
  -- values of different kinds
  all_goals exact iff_of_false (fun h => by cases h) (fun h => by cases h)

end AttributeValue

/-- An attribute: a flattened field name and a value. -/
structure Attribute where
  flattenedFieldName : String
  value : AttributeValue
  deriving DecidableEq, Repr

namespace Attribute

/-- The equality of `PartialEq`. -/
def eq (a b : Attribute) : Bool :=
  a.flattenedFieldName == b.flattenedFieldName && a.value.eq b.value

def canonical (a : Attribute) : Attribute := ⟨a.flattenedFieldName, a.value.canonical⟩

theorem eq_iff {a b : Attribute} : a.eq b = true ↔ a.canonical = b.canonical := by
  rw [eq, Bool.and_eq_true, beq_iff_eq, AttributeValue.eq_iff, canonical, canonical, mk.injEq]

end Attribute

/-! ## Conversion -/

inductive JsonConversionError
  | unsupported (n : Number)
  | objectsNotSupported
  | nullValue
  deriving DecidableEq, Repr

/-- `AttributeValue::try_from`: numbers prefer integers to reals. -/
def AttributeValue.tryFrom : Value → Except JsonConversionError AttributeValue
  | .null => .error .nullValue
  | .bool v => .ok (.bool v)
  | .number n =>
      match n.asI64 with
      | some i => .ok (.integer i)
      | none =>
          match n.asF64 with
          | some f => .ok (.real f)
          | none => .error (.unsupported n)
  | .string s => .ok (.string s)
  | .array _ => .error .objectsNotSupported
  | .object _ => .error .objectsNotSupported

/-- `from_json_value` -/
def Attribute.fromJsonValue (fieldName : String) (jsonValue : Value) :
    Except JsonConversionError Attribute := do
  let value ← AttributeValue.tryFrom jsonValue
  pure ⟨fieldName, value⟩

end DiskAnn.LabelFilter
