import DiskAnn.LabelFilter.RangeQuery

/-! # Where a comparison is exact

For integers the bound is truncated, so that those between a fractional bound and zero are on its wrong
side. For floats the bound is in the range of `>` and not in that of `<=`.
-/

namespace DiskAnn.LabelFilter

/-! ## An index with one document -/

theorem exists_readIndex {store : KvStore} (finite : {key | store.get key ≠ none}.Finite) :
    ∃ index : ReadIndex, index.store = store ∧ index.fieldNormalizer = none := by
  refine ⟨{
    store := store
    range := fun keys => (finite.toFinset.toList.filter keys.contains).filterMap fun key =>
      (store.get key).map (key, ·)
    mem_range := fun keys entry => ?_
    fieldNormalizer := none }, rfl, rfl⟩
  obtain ⟨key, value⟩ := entry
  simp only [List.mem_filterMap, List.mem_filter, Option.map_eq_some_iff, Prod.mk.injEq]
  constructor
  · rintro ⟨key, ⟨-, inside⟩, value, held, rfl, rfl⟩
    exact ⟨inside, held⟩
  · rintro ⟨inside, held⟩
    exact ⟨key, ⟨by simp [held], inside⟩, value, held, rfl, rfl⟩

namespace GenericIndex

theorem finite_set {store : KvStore} (finite : {key | store.get key ≠ none}.Finite)
    (key value : List UInt8) : {other | (store.set key value).get other ≠ none}.Finite := by
  refine (finite.insert key).subset fun other held => ?_
  rw [Set.mem_ofPred_eq, KvStore.get_set] at held
  split at held
  · exact .inl ‹_›
  · exact .inr held

theorem finite_insertLoop (format : RoaringFormat) (docId : ℕ) (keys : List (List UInt8))
    {store : KvStore} (finite : {key | store.get key ≠ none}.Finite) :
    {key | (insertLoop format docId keys store).2.get key ≠ none}.Finite := by
  induction keys generalizing store with
  | nil => exact finite
  | cons key keys ih =>
    unfold insertLoop
    split
    · exact ih (finite_set finite _ _)
    · exact finite

theorem finite_insert (format : RoaringFormat) (docId : ℕ) (attrs : Attributes) {store : KvStore}
    (finite : {key | store.get key ≠ none}.Finite) :
    {key | (insert format store docId attrs).2.get key ≠ none}.Finite := by
  have looped := finite_insertLoop format docId attrs.keys finite
  unfold insert
  split <;> rename_i same <;> rw [same] at looped
  · split
    · exact finite_set looped _ _
    · exact looped
  · exact looped

variable (value : AttributeValue)

/-- One field with a value. -/
def document : Attributes := ⟨[("n", value)], by simp⟩

/-- Document zero alone. -/
def onlyDocument : ℕ → Option Attributes :=
  Function.update (fun _ => none) 0 (some (document value))

theorem apart_onlyDocument :
    Apart {id | (onlyDocument value id).isSome} := by
  have only (id : ℕ) (present : (onlyDocument value id).isSome) : id = 0 := by
    by_contra other
    rw [onlyDocument, Function.update_of_ne other] at present
    cases present
  intro id present other present' _
  rw [only id present, only other present']

theorem clear_onlyDocument : Clear (onlyDocument value) "n" := by
  intro id attrs given entry listed _
  rw [onlyDocument, Function.update_apply] at given
  split at given
  · cases given
    rw [List.mem_singleton.mp listed]
  · cases given

theorem exists_onlyDocument {value : AttributeValue} (fits : FitsKeyList (document value).keys) :
    ∃ index : ReadIndex, ∃ sets, Indexed wordsFormat index.store sets (onlyDocument value) ∧
      Clear (onlyDocument value) (index.normalizeField "n") ∧
      (index.normalizeField "n", value) ∈ (document value).entries := by
  have new : Indexed wordsFormat .new (fun _ => ∅) fun _ => none := indexed_new
  have empty : {key | KvStore.new.get key ≠ none}.Finite := by simp [KvStore.new, KvStore.get]
  obtain ⟨store, sets, inserted, indexed⟩ := new.insert 0 fits (by simp)
  have finite := finite_insert wordsFormat 0 (document value) empty
  rw [inserted] at finite
  obtain ⟨index, rfl, plain⟩ := exists_readIndex finite
  have same : index.normalizeField "n" = "n" := by rw [ReadIndex.normalizeField, plain]
  refine ⟨index, sets, indexed, ?_, ?_⟩
  · rw [same]
    exact clear_onlyDocument value
  · rw [same]
    exact List.mem_singleton_self _

/-- The answer on one document. -/
theorem exists_answer {value : AttributeValue} (fits : FitsKeyList (document value).keys) (r : RangeOp)
    {x : F64} (finite : x.isFinite = true) :
    ∃ index : ReadIndex, (∃ sets, Indexed wordsFormat index.store sets (onlyDocument value)) ∧
      ∃ pl, evaluateQuery wordsFormat index (.compare "n" (r.compareOp x)) = .ok pl ∧
        (pl.contains 0 = true ↔ Selects r x value) := by
  obtain ⟨index, sets, indexed, clear, listed⟩ := exists_onlyDocument fits
  obtain ⟨pl, evaluated, found⟩ :=
    evaluateQuery_contains indexed (apart_onlyDocument value) clear r finite
  exact ⟨index, ⟨sets, indexed⟩, pl, evaluated, found 0 (document value) value rfl listed⟩

end GenericIndex

/-! ## Integers -/

/-- The number itself. -/
def Number.toRat : Number → ℚ
  | posInt n => n.toNat
  | negInt n => n.toInt
  | float f => f.toRat

/-- The operand of a comparison with the number. -/
def Number.operand (v : Number) : F64 := v.asF64.getD .zero

namespace RangeOp

/-- The comparison of two numbers. -/
def Holds (a b : ℚ) : RangeOp → Prop
  | lt => a < b
  | lte => a ≤ b
  | gt => b < a
  | gte => b ≤ a

/-- Truncating the bound `v`, within the range of `i64`, takes it to the other side of `n`. -/
def Misses (n : ℤ) (v : ℚ) : RangeOp → Prop
  | lt | gte => 0 < v ∧ n < v ∧ (v < n + 1 ∨ n = 2 ^ 63 - 1)
  | gt | lte => v < 0 ∧ v < n ∧ (n - 1 < v ∨ n = -2 ^ 63)

end RangeOp

namespace GenericIndex

theorem saddOverflow_one_iff {x : F64} (finite : x.isFinite = true) :
    x.toI64.saddOverflow 1 = false ↔ x.toRat < 2 ^ 63 := by
  have range := BitVec.le_toInt x.toI64
  have one : (1 : BitVec 64).toInt = 1 := by decide
  have last : x.toI64.saddOverflow 1 = false ↔ x.toI64.toInt < 2 ^ 63 - 1 := by
    simp only [BitVec.saddOverflow, Bool.or_eq_false_iff, decide_eq_false_iff_not]
    omega
  rw [last]
  refine ⟨fun below => ?_, F64.toInt_toI64_lt finite⟩
  rw [F64.toInt_toI64 finite, clamp_trunc_lt_iff _ (by norm_num) (by norm_num)] at below
  have bound := below.1
  push_cast at bound
  linarith

theorem boundsOverflow_eq_false_iff (r : RangeOp) {x : F64} (finite : x.isFinite = true) :
    boundsOverflow (r.compareOp x) = false ↔ (r.raised = true → x.toRat < 2 ^ 63) := by
  cases r with
  | lt | gte => exact iff_of_true rfl nofun
  | lte | gt => exact (saddOverflow_one_iff finite).trans ⟨fun small _ => small, fun small => small rfl⟩

theorem toInt_adjustedVal_true {x : F64} (finite : x.isFinite = true) (small : x.toRat < 2 ^ 63) :
    (adjustedVal true x).toInt = x.toI64.toInt + 1 := by
  exact BitVec.toInt_add_of_not_saddOverflow (Bool.eq_false_iff.mp ((saddOverflow_one_iff finite).mpr small))

theorem or_iff_self_iff {p a c : Prop} : (p ∨ a ∧ c ↔ p) ↔ ¬(a ∧ ¬p ∧ c) := by tauto

theorem and_not_iff_self_iff {p a c : Prop} : (p ∧ ¬(a ∧ c) ↔ p) ↔ ¬(a ∧ p ∧ c) := by tauto

theorem selects_integer_iff (r : RangeOp) {x : F64} (finite : x.isFinite = true)
    (small : r.raised = true → x.toRat < 2 ^ 63) (n : BitVec 64) :
    (Selects r x (.integer n) ↔ r.Holds n.toInt x.toRat) ↔ ¬r.Misses n.toInt x.toRat := by
  have sized : (-2 ^ 63 : ℤ) ≤ 0 ∧ (0 : ℤ) ≤ 2 ^ 63 - 1 := by norm_num
  have inside : -2 ^ 63 ≤ n.toInt ∧ n.toInt ≤ 2 ^ 63 - 1 :=
    ⟨n.le_toInt, Int.le_sub_one_of_lt BitVec.toInt_lt⟩
  -- A lower bound is not passed where the upper bound of the same number is.
  have least : (x.toI64.toInt ≤ n.toInt ↔ x.toRat ≤ n.toInt) ↔ ¬RangeOp.gte.Misses n.toInt x.toRat := by
    have atMost := clamp_trunc_le_iff x.toRat sized inside
    rw [← F64.toInt_toI64 finite] at atMost
    rw [atMost, or_iff_self_iff, not_le]
    rfl
  have past : (x.toI64.toInt < n.toInt ↔ x.toRat < n.toInt) ↔ ¬RangeOp.gt.Misses n.toInt x.toRat := by
    have below := clamp_trunc_lt_iff x.toRat sized inside
    rw [← F64.toInt_toI64 finite] at below
    rw [below, and_not_iff_self_iff]
    rfl
  cases r with
  | gte => exact least
  | lt =>
    change (n.toInt < x.toI64.toInt ↔ n.toInt < x.toRat) ↔ _
    rw [← not_le, ← not_le, not_iff_not]
    exact least
  | gt =>
    change ((adjustedVal true x).toInt ≤ n.toInt ↔ x.toRat < n.toInt) ↔ _
    rw [toInt_adjustedVal_true finite (small rfl)]
    exact past
  | lte =>
    change (n.toInt < (adjustedVal true x).toInt ↔ n.toInt ≤ x.toRat) ↔ _
    rw [toInt_adjustedVal_true finite (small rfl), Int.lt_add_one_iff, ← not_lt, ← not_lt, not_iff_not]
    exact past

variable {format : RoaringFormat} {index : ReadIndex} {sets : List UInt8 → Finset (BitVec 32)}
  {latest : ℕ → Option Attributes} {field : String}

/-- A comparison finds the right integers if truncating the bound misses none of them, and nothing
overflows. -/
theorem evaluateQuery_integer_iff (indexed : Indexed format index.store sets latest)
    (apart : Apart {id | (latest id).isSome}) (clear : Clear latest (index.normalizeField field))
    (r : RangeOp) {v : Number} (finite : v.operand.isFinite = true)
    (exactly : v.operand.toRat = v.toRat) :
    (boundsOverflow (r.compareOp v.operand) = false ∧
      ∃ pl, evaluateQuery format index (.compare field (r.compareOp v.operand)) = .ok pl ∧
        ∀ id attrs n, latest id = some attrs →
          (index.normalizeField field, .integer n) ∈ attrs.entries →
          (pl.contains id = true ↔ r.Holds n.toInt v.toRat)) ↔
    (r.raised = true → v.toRat < 2 ^ 63) ∧
      ∀ id attrs n, latest id = some attrs → (index.normalizeField field, .integer n) ∈ attrs.entries →
        ¬r.Misses n.toInt v.toRat := by
  rw [← exactly, boundsOverflow_eq_false_iff r finite]
  refine and_congr_right fun small => ?_
  obtain ⟨pl, evaluated, found⟩ := evaluateQuery_contains indexed apart clear r finite
  constructor
  · rintro ⟨pl', evaluated', right⟩ id attrs n given listed
    obtain rfl := Except.ok.inj (evaluated.symm.trans evaluated')
    rw [← selects_integer_iff r finite small, ← found id attrs _ given listed]
    exact right id attrs n given listed
  · refine fun hits => ⟨pl, evaluated, fun id attrs n given listed => ?_⟩
    rw [found id attrs _ given listed, selects_integer_iff r finite small]
    exact hits id attrs n given listed

theorem fits_one : FitsKeyList (document (.integer 1)).keys :=
  ⟨by decide, by decide +kernel, by decide +kernel⟩

/-- The integer one is found above zero. -/
theorem evaluateQuery_integer_one :
    ∃ index : ReadIndex, (∃ sets, Indexed wordsFormat index.store sets (onlyDocument (.integer 1))) ∧
      ∃ pl, evaluateQuery wordsFormat index (.compare "n" (.gt (Number.posInt 0).operand)) = .ok pl ∧
        (pl.contains 0 = true ↔ (Number.posInt 0).toRat < 1) := by
  obtain ⟨index, sets, indexed, clear, listed⟩ := exists_onlyDocument fits_one
  have zero : (Number.posInt 0).toRat = 0 := rfl
  obtain ⟨-, pl, evaluated, found⟩ := (evaluateQuery_integer_iff indexed (apart_onlyDocument _) clear
    .gt (v := .posInt 0) (by decide) (by decide +kernel)).mpr
      ⟨fun _ => by rw [zero]; norm_num, fun _ _ _ _ _ missed => lt_irrefl _ missed.1⟩
  exact ⟨index, ⟨sets, indexed⟩, pl, evaluated, found 0 (document (.integer 1)) 1 rfl listed⟩

/-- The bound `1.5` -/
def oneAndAHalf : F64 := ⟨0x3ff8000000000000⟩

/-- The integer one is found above `1.5`. -/
theorem evaluateQuery_below_fraction :
    ∃ index : ReadIndex, (∃ sets, Indexed wordsFormat index.store sets (onlyDocument (.integer 1))) ∧
      ∃ pl, evaluateQuery wordsFormat index (.compare "n" (.gte oneAndAHalf)) = .ok pl ∧
        pl.contains 0 = true ∧ ¬oneAndAHalf.toRat ≤ 1 := by
  obtain ⟨index, indexed, pl, evaluated, found⟩ := exists_answer fits_one .gte
    (show oneAndAHalf.isFinite = true by decide)
  have selected : Selects .gte oneAndAHalf (.integer 1) := by
    change oneAndAHalf.toI64.toInt ≤ (1 : BitVec 64).toInt
    decide +kernel
  exact ⟨index, indexed, pl, evaluated, found.mpr selected, by decide +kernel⟩

end GenericIndex

/-! ## Floats -/

namespace RangeOp

/-- The comparison of a value with the bound, as the direct evaluator makes it. -/
def compares (y v : F64) : RangeOp → Bool
  | lt => y.lt v
  | lte => v.ge y
  | gt => v.lt y
  | gte => y.ge v

/-- The key of the bound belongs to the range of `>` and not to that of `<=`, and the key of the
negative zero is not that of the other one. -/
def Skips (y v : F64) : RangeOp → Prop
  | lt | gte => y = .negZero ∧ v = .zero
  | gt | lte => y.key = v.key ∧ ¬(y = .negZero ∧ v = .zero)

end RangeOp

namespace GenericIndex

open DefaultKeyCodec

theorem selects_real_iff (r : RangeOp) {y v : F64} (hy : y.isNan = false) (hv : v.isNan = false) :
    (Selects r v (.real y) ↔ r.compares y v = true) ↔ ¬r.Skips y v := by
  have order : encodeF64 v ≤ encodeF64 y ↔ ¬(y.key < v.key ∨ y = .negZero ∧ v = .zero) := by
    rw [← BitVec.not_lt, encodeF64_lt_iff]
  by_cases skipped : y = .negZero ∧ v = .zero
  · obtain ⟨rfl, rfl⟩ := skipped
    cases r <;> simp only [Selects, RangeOp.below, RangeOp.Skips,
      Bool.false_eq_true] <;> decide
  · simp only [skipped, or_false] at order
    have below : encodeF64 y < encodeF64 v ↔ y.key < v.key := by simp [encodeF64_lt_iff, skipped]
    cases r with
    | gte =>
      change (encodeF64 v ≤ encodeF64 y ↔ y.ge v = true) ↔ ¬(y = .negZero ∧ v = .zero)
      rw [order, F64.ge_iff hy hv, not_lt]
      exact iff_of_true Iff.rfl skipped
    | lt =>
      change (encodeF64 y < encodeF64 v ↔ y.lt v = true) ↔ ¬(y = .negZero ∧ v = .zero)
      rw [below, F64.lt_iff hy hv]
      exact iff_of_true Iff.rfl skipped
    | gt =>
      change (encodeF64 v ≤ encodeF64 y ↔ v.lt y = true) ↔ ¬(y.key = v.key ∧ _)
      rw [order, F64.lt_iff hv hy, and_iff_left skipped]
      omega
    | lte =>
      change (encodeF64 y < encodeF64 v ↔ v.ge y = true) ↔ ¬(y.key = v.key ∧ _)
      rw [below, F64.ge_iff hv hy, and_iff_left skipped]
      omega

variable {format : RoaringFormat} {index : ReadIndex} {sets : List UInt8 → Finset (BitVec 32)}
  {latest : ℕ → Option Attributes} {field : String}

/-- A comparison finds the right floats if none of them is skipped. -/
theorem evaluateQuery_real_iff (indexed : Indexed format index.store sets latest)
    (apart : Apart {id | (latest id).isSome}) (clear : Clear latest (index.normalizeField field))
    (r : RangeOp) {v : F64} (finite : v.isFinite = true) :
    (∃ pl, evaluateQuery format index (.compare field (r.compareOp v)) = .ok pl ∧
      ∀ id attrs y, latest id = some attrs → (index.normalizeField field, .real y) ∈ attrs.entries →
        y.isFinite = true → (pl.contains id = true ↔ r.compares y v = true)) ↔
    ∀ id attrs y, latest id = some attrs → (index.normalizeField field, .real y) ∈ attrs.entries →
      y.isFinite = true → ¬r.Skips y v := by
  obtain ⟨pl, evaluated, found⟩ := evaluateQuery_contains indexed apart clear r finite
  have number := F64.isNan_of_isFinite finite
  constructor
  · rintro ⟨pl', evaluated', right⟩ id attrs y given listed proper
    obtain rfl := Except.ok.inj (evaluated.symm.trans evaluated')
    rw [← selects_real_iff r (F64.isNan_of_isFinite proper) number, ← found id attrs _ given listed]
    exact right id attrs y given listed proper
  · refine fun hits => ⟨pl, evaluated, fun id attrs y given listed proper => ?_⟩
    rw [found id attrs _ given listed, selects_real_iff r (F64.isNan_of_isFinite proper) number]
    exact hits id attrs y given listed proper

theorem fits_oneFloat : FitsKeyList (document (.real .one)).keys :=
  ⟨by decide, by decide +kernel, by decide +kernel⟩

/-- The float one is found at or above itself. -/
theorem evaluateQuery_real_one :
    ∃ index : ReadIndex, (∃ sets, Indexed wordsFormat index.store sets (onlyDocument (.real .one))) ∧
      ∃ pl, evaluateQuery wordsFormat index (.compare "n" (.gte .one)) = .ok pl ∧
        (pl.contains 0 = true ↔ F64.one.ge .one = true) := by
  obtain ⟨index, sets, indexed, clear, listed⟩ := exists_onlyDocument fits_oneFloat
  obtain ⟨pl, evaluated, found⟩ := (evaluateQuery_real_iff indexed (apart_onlyDocument _) clear .gte
    (v := .one) (by decide)).mpr fun _ _ _ _ _ _ skipped => absurd skipped.2 (by decide)
  exact ⟨index, ⟨sets, indexed⟩, pl, evaluated,
    found 0 (document (.real .one)) .one rfl listed (by decide)⟩

/-- The float one is found above itself. -/
theorem evaluateQuery_own_bound :
    ∃ index : ReadIndex, (∃ sets, Indexed wordsFormat index.store sets (onlyDocument (.real .one))) ∧
      ∃ pl, evaluateQuery wordsFormat index (.compare "n" (.gt .one)) = .ok pl ∧
        pl.contains 0 = true ∧ F64.one.lt .one = false := by
  obtain ⟨index, indexed, pl, evaluated, found⟩ := exists_answer fits_oneFloat .gt
    (show F64.one.isFinite = true by decide)
  exact ⟨index, indexed, pl, evaluated, found.mpr (BitVec.le_refl _), by decide⟩

end GenericIndex

end DiskAnn.LabelFilter
