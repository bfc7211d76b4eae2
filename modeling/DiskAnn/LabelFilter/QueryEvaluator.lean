import DiskAnn.LabelFilter.Json
import DiskAnn.LabelFilter.KeyOrder
import DiskAnn.LabelFilter.LabelIdMapper
import DiskAnn.LabelFilter.Postings

/-! # Queries on the inverted index

`query_evaluator_impl.rs`, with the bounds of `generic_index.rs`: a comparison with a number scans the
keys of the integers and then those of the floats of a field.
-/

namespace DiskAnn.LabelFilter

/-! ## Ranges of keys -/

inductive RangeBound
  | unbounded
  | included (key : List UInt8)
  | excluded (key : List UInt8)

structure KeyRange where
  start : RangeBound
  stop : RangeBound

namespace KeyRange

def contains (range : KeyRange) (key : List UInt8) : Bool :=
  (match range.start with
    | .unbounded => true
    | .included s => s ≤ key
    | .excluded s => s < key) &&
  (match range.stop with
    | .unbounded => true
    | .included e => key ≤ e
    | .excluded e => key < e)

/-- `start..stop` -/
def halfOpen (start stop : List UInt8) : KeyRange := ⟨.included start, .excluded stop⟩

theorem contains_halfOpen {start stop key : List UInt8} :
    (halfOpen start stop).contains key = true ↔ start ≤ key ∧ key < stop := by
  simp [contains, halfOpen]

end KeyRange

inductive QueryError
  | unsupportedOperation (operation reason : String)
  | invalidQuery (field : String) (reason : JsonConversionError)
  | index (e : IndexError)

/-- The index as a query reads it. The store lists the entries of a range in any order. -/
structure ReadIndex where
  store : KvStore
  range : KeyRange → List (List UInt8 × List UInt8)
  mem_range : ∀ keys entry, entry ∈ range keys ↔
    keys.contains entry.1 = true ∧ store.get entry.1 = some entry.2
  fieldNormalizer : Option (String → String)

def ReadIndex.normalizeField (index : ReadIndex) (field : String) : String :=
  match index.fieldNormalizer with
  | some normalizer => normalizer field
  | none => field

namespace RoaringPostingList

def union (pl other : RoaringPostingList) : RoaringPostingList := ⟨pl.rb ∪ other.rb⟩

def intersect (pl other : RoaringPostingList) : RoaringPostingList := ⟨pl.rb ∩ other.rb⟩

end RoaringPostingList

/-! ## Bounds -/

/-- `"\u{10FFFF}"` -/
def lastCodePoint : String := String.singleton (Char.ofNat 0x10ffff)

namespace GenericIndex

def getCompareValue : CompareOp → Option F64
  | .eq v | .ne v => v.asF64
  | .lt v | .lte v | .gt v | .gte v => some v

/-- A bound that is raised by one wraps, as in a release build. -/
def adjustedVal (raised : Bool) (value : F64) : BitVec 64 :=
  if raised then value.toI64 + 1 else value.toI64

/-- Some addition of the bounds overflows. -/
def boundsOverflow : CompareOp → Bool
  | .gt value | .lte value => value.toI64.saddOverflow 1
  | _ => false

def getIntegerRangeBounds (field : String) (op : CompareOp) : List UInt8 × List UInt8 :=
  match getCompareValue op with
  | none => ([], [])
  | some value =>
      let least := intoBytes (field ++ fieldSeparator ++ typePrefixInteger)
      let most := intoBytes (field ++ fieldSeparator ++ typePrefixInteger ++ lastCodePoint)
      let bound raised := DefaultKeyCodec.encodeFieldValueKey field (.integer (adjustedVal raised value))
      match op with
      | .gte _ => (bound false, most)
      | .gt _ => (bound true, most)
      | .lte _ => (least, bound true)
      | .lt _ => (least, bound false)
      | _ => ([], [])

/-- `serde_json::Number::from_f64` has no number for what is not finite. -/
def getFloatRangeBounds (field : String) (op : CompareOp) : List UInt8 × List UInt8 :=
  match getCompareValue op with
  | none => ([], [])
  | some value =>
      let least := intoBytes (field ++ fieldSeparator ++ typePrefixFloat)
      let most := intoBytes (field ++ fieldSeparator ++ typePrefixFloat ++ lastCodePoint)
      let bound := DefaultKeyCodec.encodeFieldValueKey field (.real value)
      match op with
      | .gte _ | .gt _ => if value.isFinite then (bound, most) else ([], [])
      | .lte _ | .lt _ => if value.isFinite then (least, bound) else ([], [])
      | _ => ([], [])

/-! ## Evaluation -/

variable (format : RoaringFormat) (index : ReadIndex)

/-- The loop over the entries of a range. -/
def unionAll : RoaringPostingList → List (List UInt8 × List UInt8) → Except QueryError RoaringPostingList
  | result, [] => .ok result
  | result, entry :: entries =>
      match deserializePostingList format entry.2 with
      | .ok pl => unionAll (result.union pl) entries
      | .error e => .error (.index e)

def scan (result : RoaringPostingList) (bounds : List UInt8 × List UInt8) :
    Except QueryError RoaringPostingList :=
  if bounds.1.isEmpty then .ok result
  else unionAll format result (index.range (.halfOpen bounds.1 bounds.2))

def evaluateRange (field : String) (op : CompareOp) : Except QueryError RoaringPostingList :=
  match scan format index .empty (getIntegerRangeBounds (index.normalizeField field) op) with
  | .ok result => scan format index result (getFloatRangeBounds (index.normalizeField field) op)
  | .error e => .error e

def evaluateCompare (field : String) (op : CompareOp) : Except QueryError RoaringPostingList :=
  match op with
  | .eq v =>
      match AttributeValue.tryFrom v with
      | .error e => .error (.invalidQuery field e)
      | .ok value =>
          match getPostingList format index.store (index.normalizeField field) value with
          | .ok (some pl) => .ok pl
          | .ok none => .ok .empty
          | .error e => .error (.index e)
  | .ne _ => .error (.unsupportedOperation "NE" ("NE operation requires document universe tracking. " ++
      "Rewrite query using complemented AND/OR logic."))
  | .lt _ | .lte _ | .gt _ | .gte _ => evaluateRange format index field op

mutual

def evaluateQuery : ASTExpr → Except QueryError RoaringPostingList
  | .and [] => .ok .empty
  | .and (sub :: subs) =>
      match evaluateQuery sub with
      | .ok acc => evaluateAnd acc subs
      | .error e => .error e
  | .or subs => evaluateOr .empty subs
  | .not _ => .error (.unsupportedOperation "NOT"
      ("NOT operation requires document universe tracking. " ++
        "Use De Morgan's laws to rewrite as AND/OR, or implement document tracking."))
  | .compare field op => evaluateCompare format index field op

/-- The loop of a conjunction, which ends early when nothing is left. -/
def evaluateAnd : RoaringPostingList → List ASTExpr → Except QueryError RoaringPostingList
  | acc, [] => .ok acc
  | acc, sub :: subs =>
      match evaluateQuery sub with
      | .ok result =>
          if (acc.intersect result).isEmpty then .ok (acc.intersect result)
          else evaluateAnd (acc.intersect result) subs
      | .error e => .error e

def evaluateOr : RoaringPostingList → List ASTExpr → Except QueryError RoaringPostingList
  | acc, [] => .ok acc
  | acc, sub :: subs =>
      match evaluateQuery sub with
      | .ok result => evaluateOr (acc.union result) subs
      | .error e => .error e

end

end GenericIndex

end DiskAnn.LabelFilter
