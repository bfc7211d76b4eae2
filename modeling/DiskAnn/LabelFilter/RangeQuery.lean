import DiskAnn.LabelFilter.QueryEvaluator

/-! # What a comparison finds

The two scans of a comparison read the keys of a field whose texts lie on one side of a bound, and so
collect the documents with such a value.
-/

namespace DiskAnn.LabelFilter

open List

/-! ## Scans -/

theorem zero_not_mem_reverseKey (docId : ℕ) : 0 ∉ reverseKey docId := by
  have label : (0 : UInt8) ∉ intoBytes "@R:" := by decide
  rw [reverseKey, intoBytes_append, mem_append, Nat.repr,
    intoBytes_ofList (Nat.toDigits 10 docId), mem_flatMap]
  rintro (first | ⟨c, digit, zero⟩)
  · exact label first
  · have range := Nat.isDigit_of_mem_toDigits (by decide) (by decide) digit
    rw [Char.isDigit_iff_toNat] at range
    change 48 ≤ c.toNat ∧ c.toNat ≤ 57 at range
    have single : String.utf8EncodeChar c = [UInt8.ofNat c.toNat] := if_pos (range.2.trans (by decide))
    rw [single, mem_singleton, ← UInt8.toNat_inj, UInt8.toNat_ofNat'] at zero
    change 0 = _ at zero
    omega

namespace GenericIndex

variable {format : RoaringFormat} {index : ReadIndex} {sets : List UInt8 → Finset (BitVec 32)}

theorem unionAll_lists (lists : Lists format index.store sets) {entries : List (List UInt8 × List UInt8)}
    (posting : ∀ entry ∈ entries, IsPosting entry.1)
    (stored : ∀ entry ∈ entries, index.store.get entry.1 = some entry.2) (res : RoaringPostingList) :
    ∃ pl, unionAll format res entries = .ok pl ∧
      ∀ n, n ∈ pl.rb ↔ n ∈ res.rb ∨ ∃ entry ∈ entries, n ∈ sets entry.1 := by
  induction entries generalizing res with
  | nil => exact ⟨res, rfl, by simp⟩
  | cons entry entries ih =>
    have first := stored entry mem_cons_self
    have read : deserializePostingList format entry.2 = .ok ⟨sets entry.1⟩ := by
      rcases lists.stored entry.1 (posting entry mem_cons_self) with held | ⟨absent, -⟩
      · rw [← Option.some.inj (held.symm.trans first)]
        exact deserializePostingList_serialize _
      · cases absent.symm.trans first
    obtain ⟨pl, rest, members⟩ := ih (fun other mem => posting other (mem_cons_of_mem _ mem))
      (fun other mem => stored other (mem_cons_of_mem _ mem))
      (res.union ⟨sets entry.1⟩)
    refine ⟨pl, by simpa only [unionAll, read] using rest, fun n => ?_⟩
    rw [members, RoaringPostingList.union]
    simp [or_assoc]

/-- A scan collects the lists of the keys between its bounds. -/
theorem scan_lists (lists : Lists format index.store sets) {low high : List UInt8} (begins : low ≠ [])
    (posting : ∀ key, low ≤ key ∧ key < high → IsPosting key) (res : RoaringPostingList) :
    ∃ pl, scan format index res (low, high) = .ok pl ∧
      ∀ n, n ∈ pl.rb ↔ n ∈ res.rb ∨ ∃ key, (low ≤ key ∧ key < high) ∧ n ∈ sets key := by
  have inside : ∀ entry, entry ∈ index.range (.halfOpen low high) ↔
      (low ≤ entry.1 ∧ entry.1 < high) ∧ index.store.get entry.1 = some entry.2 := fun entry => by
    rw [index.mem_range, KeyRange.contains_halfOpen]
  obtain ⟨pl, looped, members⟩ := unionAll_lists lists
    (fun entry mem => posting entry.1 ((inside entry).mp mem).1)
    (fun entry mem => ((inside entry).mp mem).2) res
  refine ⟨pl, ?_, fun n => ?_⟩
  · rw [scan, if_neg (by simpa using begins)]
    exact looped
  · rw [members]
    refine or_congr_right ⟨?_, ?_⟩
    · rintro ⟨entry, mem, listed⟩
      exact ⟨entry.1, ((inside entry).mp mem).1, listed⟩
    · rintro ⟨key, between, listed⟩
      rcases lists.stored key (posting key between) with held | ⟨-, none⟩
      · exact ⟨(key, _), (inside (key, _)).mpr ⟨between, held⟩, listed⟩
      · rw [none] at listed
        cases listed

end GenericIndex

/-! ## Bounds -/

/-- The comparisons with a number. -/
inductive RangeOp
  | lt
  | lte
  | gt
  | gte
  deriving DecidableEq, Repr

namespace RangeOp

def compareOp : RangeOp → F64 → CompareOp
  | lt => .lt
  | lte => .lte
  | gt => .gt
  | gte => .gte

/-- The number is a lower bound. -/
def below : RangeOp → Bool
  | gt | gte => true
  | lt | lte => false

/-- The bound of the integers is raised. -/
def raised : RangeOp → Bool
  | gt | lte => true
  | lt | gte => false

/-- The ends of a range, behind the field and the type. -/
def ends (r : RangeOp) (bound : List UInt8) : List UInt8 × List UInt8 :=
  if r.below then (bound, intoBytes lastCodePoint) else ([], bound)

/-- A text between the ends. -/
def Within (r : RangeOp) (bound text : List UInt8) : Prop :=
  (r.ends bound).1 ≤ text ∧ text < (r.ends bound).2

theorem within_hex16 (r : RangeOp) (b m : BitVec 64) :
    r.Within (intoBytes (hex16 b)) (intoBytes (hex16 m)) ↔ if r.below then b ≤ m else m < b := by
  have top : intoBytes (hex16 m) < intoBytes lastCodePoint := by
    have digit : ∀ d < 16, hexByte d < 0xf4 := by decide
    have bytes : intoBytes lastCodePoint = [0xf4, 0x8f, 0xbf, 0xbf] := by decide
    rw [intoBytes_hex16, bytes, bigEndian, map_cons, cons_lt_cons_iff]
    exact .inl (digit _ (Nat.mod_lt _ (by decide)))
  unfold Within ends
  split
  · rw [and_iff_left top, ← BitVec.not_lt, ← hex16_lt_iff]
    rfl
  · rw [and_iff_right (nil_le _), hex16_lt_iff]

end RangeOp

namespace GenericIndex

open DefaultKeyCodec

/-- What the keys of one type of a field begin with. -/
def start (field type : String) : List UInt8 := intoBytes (field ++ fieldSeparator ++ type)

/-- The bounds of a scan of one type of a field. -/
def bounds (r : RangeOp) (field type : String) (bound : List UInt8) : List UInt8 × List UInt8 :=
  (start field type ++ (r.ends bound).1, start field type ++ (r.ends bound).2)

open RangeOp

theorem getIntegerRangeBounds_eq (field : String) (r : RangeOp) (x : F64) :
    getIntegerRangeBounds field (r.compareOp x) =
      bounds r field typePrefixInteger (intoBytes (hex16 (encodeI64 (adjustedVal r.raised x)))) := by
  cases r <;> simp [getIntegerRangeBounds, getCompareValue, compareOp, ends,
    below, raised, bounds, start, encodeFieldValueKey, formatIntegerValue,
    intoBytes_append]

theorem getFloatRangeBounds_eq (field : String) (r : RangeOp) {x : F64} (finite : x.isFinite = true) :
    getFloatRangeBounds field (r.compareOp x) =
      bounds r field typePrefixFloat (intoBytes (hex16 (encodeF64 x))) := by
  cases r <;> simp [getFloatRangeBounds, getCompareValue, compareOp, ends,
    below, bounds, start, encodeFieldValueKey, formatFloatValue, intoBytes_append, finite]

theorem zero_mem_start (field type : String) : 0 ∈ start field type := by
  have separator : (0 : UInt8) ∈ intoBytes fieldSeparator := by decide
  rw [start, intoBytes_append, intoBytes_append]
  simp [separator]

theorem isPosting_start (field type : String) (rest : List UInt8) :
    IsPosting (start field type ++ rest) := by
  intro docId same
  apply zero_not_mem_reverseKey docId
  rw [← same]
  exact mem_append_left _ (zero_mem_start field type)

section Scan

variable {format : RoaringFormat} {index : ReadIndex} {sets : List UInt8 → Finset (BitVec 32)}

theorem scan_bounds (lists : Lists format index.store sets) (res : RoaringPostingList) (r : RangeOp)
    (field type : String) (bound : List UInt8) :
    ∃ pl, scan format index res (bounds r field type bound) = .ok pl ∧ ∀ n, n ∈ pl.rb ↔
      n ∈ res.rb ∨ ∃ text, r.Within bound text ∧ n ∈ sets (start field type ++ text) := by
  have begins : start field type ++ (r.ends bound).1 ≠ [] :=
    append_ne_nil_of_left_ne_nil (ne_nil_of_mem (zero_mem_start field type)) _
  have posting : ∀ key, start field type ++ (r.ends bound).1 ≤ key ∧
      key < start field type ++ (r.ends bound).2 → IsPosting key := by
    intro key between
    obtain ⟨text, rfl, -⟩ := (between_append_iff _).mp between
    exact isPosting_start field type text
  obtain ⟨pl, scanned, members⟩ := scan_lists lists begins posting res
  refine ⟨pl, scanned, fun n => (members n).trans (or_congr_right ?_)⟩
  constructor
  · rintro ⟨key, between, listed⟩
    obtain ⟨text, rfl, within⟩ := (between_append_iff _).mp between
    exact ⟨text, within, listed⟩
  · rintro ⟨text, within, listed⟩
    exact ⟨_, (between_append_iff _).mpr ⟨text, rfl, within⟩, listed⟩

/-- A comparison collects the lists of the integers and of the floats in its two ranges. -/
theorem evaluateQuery_lists (lists : Lists format index.store sets) (field : String) (r : RangeOp)
    {x : F64} (finite : x.isFinite = true) :
    ∃ pl, evaluateQuery format index (.compare field (r.compareOp x)) = .ok pl ∧ ∀ n, n ∈ pl.rb ↔
      (∃ text, r.Within (intoBytes (hex16 (encodeI64 (adjustedVal r.raised x)))) text ∧
        n ∈ sets (start (index.normalizeField field) typePrefixInteger ++ text)) ∨
      ∃ text, r.Within (intoBytes (hex16 (encodeF64 x))) text ∧
        n ∈ sets (start (index.normalizeField field) typePrefixFloat ++ text) := by
  obtain ⟨integers, first, isInteger⟩ := scan_bounds lists .empty r (index.normalizeField field)
    typePrefixInteger (intoBytes (hex16 (encodeI64 (adjustedVal r.raised x))))
  obtain ⟨pl, second, isFloat⟩ := scan_bounds lists integers r (index.normalizeField field)
    typePrefixFloat (intoBytes (hex16 (encodeF64 x)))
  have compared : evaluateQuery format index (.compare field (r.compareOp x)) =
      evaluateRange format index field (r.compareOp x) := by
    cases r <;> rw [evaluateQuery] <;> rfl
  refine ⟨pl, ?_, fun n => ?_⟩
  · rw [compared, evaluateRange, getIntegerRangeBounds_eq, first, getFloatRangeBounds_eq _ _ finite]
    exact second
  · rw [isFloat, isInteger]
    exact or_congr_left (or_iff_right (Finset.notMem_empty n))

end Scan

/-! ## Documents -/

/-- The keys that begin with a field and the separator belong to the field. -/
def Clear (latest : ℕ → Option Attributes) (field : String) : Prop :=
  ∀ id, ∀ attrs ∈ latest id, ∀ entry ∈ attrs.entries,
    intoBytes (field ++ fieldSeparator) <+: encodeFieldValueKey entry.1 entry.2 → entry.1 = field

/-- The values that the two ranges of a comparison hold. -/
def Selects (r : RangeOp) (x : F64) : AttributeValue → Prop
  | .integer i => if r.below then (adjustedVal r.raised x).toInt ≤ i.toInt
      else i.toInt < (adjustedVal r.raised x).toInt
  | .real y => if r.below then encodeF64 x ≤ encodeF64 y else encodeF64 y < encodeF64 x
  | _ => False

theorem selects_iff (r : RangeOp) (x : F64) (value : AttributeValue) :
    ((∃ text, r.Within (intoBytes (hex16 (encodeI64 (adjustedVal r.raised x)))) text ∧
        intoBytes (tagged value) = intoBytes typePrefixInteger ++ text) ∨
      ∃ text, r.Within (intoBytes (hex16 (encodeF64 x))) text ∧
        intoBytes (tagged value) = intoBytes typePrefixFloat ++ text) ↔ Selects r x value := by
  have integer : intoBytes typePrefixInteger = [73] := by decide
  have float : intoBytes typePrefixFloat = [70] := by decide
  have string : intoBytes typePrefixString = [83] := by decide
  have bool : intoBytes typePrefixBool = [66] := by decide
  cases value with
  | integer i =>
    have order : encodeI64 (adjustedVal r.raised x) ≤ encodeI64 i ↔
        (adjustedVal r.raised x).toInt ≤ i.toInt := by
      rw [← BitVec.not_lt, encodeI64_lt_iff, not_lt]
    rw [tagged, intoBytes_append, integer, float]
    simp [Selects, within_hex16, order, encodeI64_lt_iff]
  | real y =>
    rw [tagged, intoBytes_append, integer, float]
    simp [Selects, within_hex16]
  | string s =>
    rw [tagged, intoBytes_append, integer, float, string]
    simp [Selects]
  | bool b =>
    rw [tagged, intoBytes_append, integer, float, bool]
    simp [Selects]
  | empty =>
    rw [tagged, intoBytes_append, integer, float, string]
    simp [Selects]

section Documents

variable {latest : ℕ → Option Attributes} {field : String}

theorem start_append_mem_keys (clear : Clear latest field) {id : ℕ} {attrs : Attributes}
    (given : latest id = some attrs) {value : AttributeValue} (listed : (field, value) ∈ attrs.entries)
    (type : String) (text : List UInt8) :
    start field type ++ text ∈ attrs.keys ↔ intoBytes (tagged value) = intoBytes type ++ text := by
  have split (value : AttributeValue) : encodeFieldValueKey field value = start field type ++ text ↔
      intoBytes (tagged value) = intoBytes type ++ text := by
    rw [encodeFieldValueKey_tagged, intoBytes_append _ (tagged value), start, intoBytes_append _ type,
      append_assoc, append_cancel_left_eq]
  constructor
  · intro mem
    obtain ⟨entry, entryListed, same⟩ := mem_map.mp mem
    have begins : intoBytes (field ++ fieldSeparator) <+: encodeFieldValueKey entry.1 entry.2 := by
      rw [same, start, intoBytes_append _ type, append_assoc]
      exact prefix_append _ _
    have own := clear id attrs given entry entryListed begins
    -- An object has one value for a name.
    obtain rfl : entry = (field, value) :=
      inj_on_of_nodup_map attrs.distinct entryListed listed own
    exact (split value).mp same
  · intro same
    exact mem_map.mpr ⟨_, listed, (split value).mpr same⟩

/-- The documents with a value for the field are found by that value. -/
theorem evaluateQuery_contains {format : RoaringFormat} {index : ReadIndex} {field : String}
    {sets : List UInt8 → Finset (BitVec 32)} (indexed : Indexed format index.store sets latest)
    (apart : Apart {id | (latest id).isSome}) (clear : Clear latest (index.normalizeField field))
    (r : RangeOp) {x : F64} (finite : x.isFinite = true) :
    ∃ pl, evaluateQuery format index (.compare field (r.compareOp x)) = .ok pl ∧
      ∀ id attrs value, latest id = some attrs → (index.normalizeField field, value) ∈ attrs.entries →
        (pl.contains id = true ↔ Selects r x value) := by
  obtain ⟨pl, evaluated, members⟩ := evaluateQuery_lists indexed.lists field r finite
  refine ⟨pl, evaluated, fun id attrs value given listed => ?_⟩
  have own (type : String) (text : List UInt8) :
      BitVec.ofNat 32 id ∈ sets (start (index.normalizeField field) type ++ text) ↔
        intoBytes (tagged value) = intoBytes type ++ text := by
    rw [indexed.mem_sets _ (isPosting_start _ type text),
      ← start_append_mem_keys clear given listed type text]
    constructor
    · rintro ⟨other, attrs', given', mem, same⟩
      obtain rfl := apart (Option.isSome_of_mem given) (Option.isSome_of_mem given') same
      rwa [Option.some.inj (given.symm.trans given')]
    · exact fun mem => ⟨id, attrs, given, mem, rfl⟩
  rw [RoaringPostingList.contains, decide_eq_true_eq, members, ← selects_iff]
  simp only [own]

end Documents

end GenericIndex

end DiskAnn.LabelFilter
