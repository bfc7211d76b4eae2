import DiskAnn.Data.Fallible

/-! # Validation of a runbook

`validate.rs`: a stream that keeps the active tags as sorted disjoint ranges, and refuses to insert a
tag that is active or to replace or delete one that is not. A failed assertion or the underflow of a
length answers no result at all. The stage numbers that an error is given on its way are left out.
-/

namespace DiskAnn.Streaming

open List Fallible

/-- A range of tags, and a range of `usize` as well. -/
structure SimpleRange where
  start : ℕ
  end_ : ℕ
  deriving DecidableEq, Repr

namespace SimpleRange

def new (start end_ : ℕ) : SimpleRange := ⟨start, max end_ start⟩

variable (r : SimpleRange)

/-- `end - start`, which may underflow. -/
def len : Option ℕ := if r.end_ < r.start then none else some (r.end_ - r.start)

def isEmpty : Option Bool := r.len.map (· == 0)

def contains (i : ℕ) : Bool := r.start ≤ i && i < r.end_

def overlaps (r other : SimpleRange) : Bool := r.contains other.start || other.contains r.start

def strictlyContains (r other : SimpleRange) : Bool := r.start ≤ other.start && other.end_ ≤ r.end_

/-- The elements of the range as an iterator. -/
def toList : List ℕ := range' r.start (r.end_ - r.start)

instance : ToString SimpleRange := ⟨fun r => s!"{r.start}..{r.end_}"⟩

end SimpleRange

inductive Remaining where
  | none
  | one (r : SimpleRange)
  | two (first last : SimpleRange)
  deriving DecidableEq, Repr

def SimpleRange.remove (r other : SimpleRange) : Option Remaining := do
  if ← other.isEmpty then
    if ← r.isEmpty then pure .none else pure (.one r)
  else if !r.overlaps other then pure (.one r)
  else if other.strictlyContains r then pure .none
  else if other.start ≤ r.start then pure (.one (.new other.end_ r.end_))
  else if r.end_ ≤ other.end_ then pure (.one (.new r.start other.start))
  else if r.strictlyContains other then
    pure (.two (.new r.start other.start) (.new other.end_ r.end_))
  else Option.none

def Remaining.toList : Remaining → List SimpleRange
  | .none => []
  | .one r => [r]
  | .two first last => [first, last]

/-- The ranges with what remains of the one at the index. -/
def Remaining.splice (active : List SimpleRange) (i : ℕ) : Remaining → List SimpleRange
  | .none => active.eraseIdx i
  | .one remaining => active.set i remaining
  | .two first last => active.take i ++ [first, last] ++ active.drop (i + 1)

/-- Where a range would be in the sorted ranges. -/
inductive Place where
  | back
  | before (index : ℕ)
  | inside (index : ℕ)
  deriving DecidableEq, Repr

structure Validate where
  active : List SimpleRange
  maxActive : ℕ
  currentlyActive : ℕ
  maxTag : Option ℕ
  deriving DecidableEq, Repr

namespace Validate

def new : Validate := ⟨[], 0, 0, none⟩

variable (v : Validate)

def updateMax (tag : ℕ) : Validate :=
  { v with maxTag := some (match v.maxTag with
      | some most => max most tag
      | none => tag) }

/-- The loop of `compact`, with the range at the write position. -/
def compactFrom (write : SimpleRange) : List SimpleRange → Option (List SimpleRange)
  | [] => some [write]
  | read :: rest =>
      if write.end_ = read.start then compactFrom ⟨write.start, read.end_⟩ rest
      else if write.end_ < read.start then (compactFrom read rest).map (write :: ·)
      else none

def compact : Option Validate :=
  match v.active with
  | [] => some v
  | first :: rest => (compactFrom first rest).map fun active => { v with active }

/-- The loop of `find` from an index on. -/
def findFrom (tags : SimpleRange) : ℕ → List SimpleRange → Place
  | _, [] => .back
  | i, range :: rest =>
      if tags.overlaps range then .inside i
      else if tags.end_ ≤ range.start then .before i
      else findFrom tags (i + 1) rest

def find (tags : SimpleRange) : Place := findFrom tags 0 v.active

/-- The end of `insert`, once the tags have their place among the ranges. -/
def added (tags : SimpleRange) (active : List SimpleRange) : Option Validate := do
  let len ← tags.len
  let currentlyActive := v.currentlyActive + len
  let v := { v with active, currentlyActive, maxActive := max v.maxActive currentlyActive }
  (if 1 ≤ tags.end_ then v.updateMax (tags.end_ - 1) else v).compact

def insert (tags : SimpleRange) : ExceptT String Option Validate :=
  match v.find tags with
  | .back => liftM (v.added tags (v.active ++ [tags]))
  | .before i => liftM (v.added tags (v.active.insertIdx i tags))
  | .inside _ => throw s!"tag range {tags} is already present for insertion"

def replace (tags : SimpleRange) : ExceptT String Option Validate :=
  match v.find tags with
  | .back | .before _ => throw s!"tag range {tags} not valid for replacement"
  | .inside i =>
      match v.active[i]? with
      | some overlaps =>
          if !overlaps.strictlyContains tags then throw s!"could not match the entire range {tags}"
          else pure v
      | none => liftM (none : Option Validate)

def delete (tags : SimpleRange) : ExceptT String Option Validate :=
  match v.find tags with
  | .back | .before _ => throw s!"tag range {tags} not valid for deletion"
  | .inside i =>
      match v.active[i]? with
      | some current =>
          if !current.strictlyContains tags then
            throw s!"could not match the entire range {tags} for deletion"
          else do
            let remaining ← liftM (current.remove tags)
            let len ← liftM tags.len
            if v.currentlyActive < len then liftM (none : Option Validate)
            else pure { v with
              active := Remaining.splice v.active i remaining, currentlyActive := v.currentlyActive - len }
      | none => liftM (none : Option Validate)

end Validate

/-- An operation of a runbook, with the rows of its groundtruth for a search. -/
inductive Stage where
  | search (groundtruth : List (List ℕ))
  | insert (datasetOffsetsAndIds : SimpleRange)
  | replace (datasetOffsets ids : SimpleRange)
  | delete (ids : SimpleRange)
  deriving DecidableEq, Repr

def Validate.stage (v : Validate) : Stage → ExceptT String Option Validate
  | .search _ => pure v
  | .insert ids => v.insert ids
  | .replace _ ids => v.replace ids
  | .delete ids => v.delete ids

structure RunBook where
  stages : List Stage
  maxPoints : ℕ
  maxTag : Option ℕ
  deriving DecidableEq, Repr

/-- `RunBook::new`: the validator runs through all stages. -/
def RunBook.new (stages : List Stage) (maxPoints : ℕ) : ExceptT String Option RunBook := do
  let validator ← stages.foldlM Validate.stage .new
  pure ⟨stages, max maxPoints validator.maxActive, validator.maxTag⟩

/-! ## The active tags -/

namespace SimpleRange

variable (r : SimpleRange)

theorem contains_iff (i : ℕ) : r.contains i = true ↔ r.start ≤ i ∧ i < r.end_ := by
  simp [contains]

theorem mem_toList_iff (i : ℕ) : i ∈ r.toList ↔ r.contains i = true := by
  rw [contains_iff, toList, mem_range'_1]
  omega

theorem nodup_toList : r.toList.Nodup := nodup_range'

theorem overlaps_iff (r other : SimpleRange) : r.overlaps other = true ↔
    r.start ≤ other.start ∧ other.start < r.end_ ∨ other.start ≤ r.start ∧ r.start < other.end_ := by
  simp [overlaps, contains]

theorem strictlyContains_iff (r other : SimpleRange) :
    r.strictlyContains other = true ↔ r.start ≤ other.start ∧ other.end_ ≤ r.end_ := by
  simp [strictlyContains]

theorem len_eq_some {r : SimpleRange} {n : ℕ} (length : r.len = some n) : r.start ≤ r.end_ := by
  unfold len at length
  split_ifs at length with reversed
  exact not_lt.mp reversed

theorem isEmpty_eq {r : SimpleRange} (proper : r.start ≤ r.end_) :
    r.isEmpty = some (r.end_ - r.start == 0) := by
  rw [isEmpty, len, if_neg proper.not_gt, Option.map_some]

end SimpleRange

/-- A tag of one of the ranges. -/
def Covers (ranges : List SimpleRange) (tag : ℕ) : Prop := ∃ r ∈ ranges, r.contains tag = true

/-- The ranges are sorted and disjoint. -/
structure WellFormed (ranges : List SimpleRange) : Prop where
  sorted : ranges.Pairwise fun a b => a.end_ ≤ b.start
  proper : ∀ r ∈ ranges, r.start ≤ r.end_

/-- The ranges are nonempty, with a gap between any two of them. -/
structure Compacted (ranges : List SimpleRange) : Prop where
  sorted : ranges.Pairwise fun a b => a.end_ < b.start
  proper : ∀ r ∈ ranges, r.start < r.end_

theorem Compacted.wellFormed {ranges : List SimpleRange} (compacted : Compacted ranges) :
    WellFormed ranges :=
  ⟨compacted.sorted.imp fun before => before.le, fun r mem => (compacted.proper r mem).le⟩

namespace Validate

variable {tags r : SimpleRange} {left rest : List SimpleRange} {v v' : Validate} {tag : ℕ} {α : Type}

/-- What has been passed over, and what stopped the search for a place. -/
theorem findFrom_spec (tags : SimpleRange) (i : ℕ) (ranges : List SimpleRange) :
    ∃ left right, ranges = left ++ right ∧
      (∀ r ∈ left, tags.overlaps r = false ∧ r.start < tags.end_) ∧
      (findFrom tags i ranges = .back ∧ right = [] ∨
        (∃ r rest, right = r :: rest ∧ findFrom tags i ranges = .before (i + left.length) ∧
          tags.overlaps r = false ∧ tags.end_ ≤ r.start) ∨
        ∃ r rest, right = r :: rest ∧ findFrom tags i ranges = .inside (i + left.length) ∧
          tags.overlaps r = true) := by
  induction ranges generalizing i with
  | nil => exact ⟨[], [], rfl, forall_mem_nil _, .inl ⟨rfl, rfl⟩⟩
  | cons r ranges ih =>
    unfold findFrom
    cases overlap : tags.overlaps r with
    | true => exact ⟨[], r :: ranges, rfl, forall_mem_nil _, .inr (.inr ⟨r, ranges, rfl, rfl, overlap⟩)⟩
    | false =>
      by_cases before : tags.end_ ≤ r.start
      · exact ⟨[], r :: ranges, rfl, forall_mem_nil _,
          .inr (.inl ⟨r, ranges, rfl, if_pos before, overlap, before⟩)⟩
      · obtain ⟨left, right, rfl, passed, found⟩ := ih (i + 1)
        have index : i + 1 + left.length = i + (r :: left).length := by
          rw [length_cons]
          omega
        rw [index] at found
        refine ⟨r :: left, right, rfl,
          forall_mem_cons.mpr ⟨⟨overlap, not_le.mp before⟩, passed⟩, ?_⟩
        rw [if_neg before]
        exact found

/-- Merging neighbors changes neither the order nor the tags, and no two ranges touch after it. -/
theorem compactFrom_spec {write : SimpleRange} (wellFormed : WellFormed (write :: rest)) :
    ∃ ranges, compactFrom write rest = some ranges ∧ WellFormed ranges ∧
      (∀ r ∈ ranges, write.start ≤ r.start) ∧ (∀ tag, Covers ranges tag ↔ Covers (write :: rest) tag) ∧
      ((∀ r ∈ write :: rest, r.start < r.end_) → Compacted ranges) := by
  induction rest generalizing write with
  | nil =>
    exact ⟨_, rfl, wellFormed, fun r mem => (mem_singleton.mp mem ▸ le_rfl), fun _ => Iff.rfl,
      fun proper => ⟨pairwise_singleton _ _, proper⟩⟩
  | cons read rest ih =>
    obtain ⟨after, sorted⟩ := pairwise_cons.mp wellFormed.sorted
    have proper := forall_mem_cons.mp wellFormed.proper
    have order := after read mem_cons_self
    have properRead := proper.2 read mem_cons_self
    unfold compactFrom
    by_cases adjacent : write.end_ = read.start
    · have merged : WellFormed (⟨write.start, read.end_⟩ :: rest) :=
        ⟨pairwise_cons.mpr (pairwise_cons.mp sorted), forall_mem_cons.mpr
          ⟨by change write.start ≤ read.end_; omega, (forall_mem_cons.mp proper.2).2⟩⟩
      obtain ⟨ranges, same, wellFormed', bound, covers, compacted⟩ := ih merged
      rw [if_pos adjacent]
      refine ⟨ranges, same, wellFormed', bound, fun tag => (covers tag).trans ?_, fun strict => ?_⟩
      · simp only [Covers, exists_mem_cons_iff, SimpleRange.contains_iff]
        rw [← or_assoc]
        refine or_congr_left ?_
        omega
      · simp only [forall_mem_cons] at strict
        refine compacted (forall_mem_cons.mpr ⟨?_, strict.2.2⟩)
        change write.start < read.end_
        omega
    · obtain ⟨ranges, same, wellFormed', bound, covers, compacted⟩ := ih ⟨sorted, proper.2⟩
      have apart : write.end_ < read.start := lt_of_le_of_ne order adjacent
      rw [if_neg adjacent, if_pos apart, same]
      refine ⟨_, rfl, ⟨pairwise_cons.mpr ⟨fun r mem => ?_, wellFormed'.sorted⟩,
        forall_mem_cons.mpr ⟨proper.1, wellFormed'.proper⟩⟩,
        forall_mem_cons.mpr ⟨le_rfl, fun r mem => ?_⟩, fun tag => ?_, fun strict => ?_⟩
      · exact apart.le.trans (bound r mem)
      · exact proper.1.trans (apart.le.trans (bound r mem))
      · have rest := covers tag
        simp only [Covers, exists_mem_cons_iff] at rest ⊢
        rw [rest]
      · obtain ⟨first, others⟩ := forall_mem_cons.mp strict
        exact ⟨pairwise_cons.mpr ⟨fun r mem => apart.trans_le (bound r mem),
          (compacted others).sorted⟩, forall_mem_cons.mpr ⟨first, (compacted others).proper⟩⟩

/-- A place that is free between the ranges passed and the others. -/
theorem wellFormed_insert {right : List SimpleRange} (wellFormed : WellFormed (left ++ right))
    (proper : tags.start ≤ tags.end_)
    (passed : ∀ r ∈ left, tags.overlaps r = false ∧ r.start < tags.end_)
    (ahead : ∀ r ∈ right, tags.end_ ≤ r.start) :
    WellFormed (left ++ tags :: right) ∧ ∀ r ∈ left ++ right, ∀ tag, tags.contains tag = true →
      r.contains tag = false := by
  have behind : ∀ r ∈ left, r.end_ ≤ tags.start := by
    intro r mem
    obtain ⟨apart, start⟩ := passed r mem
    rw [← Bool.not_eq_true, SimpleRange.overlaps_iff] at apart
    omega
  obtain ⟨sortedLeft, sortedRight, across⟩ := pairwise_append.mp wellFormed.sorted
  refine ⟨⟨pairwise_append.mpr ⟨sortedLeft, pairwise_cons.mpr ⟨ahead, sortedRight⟩,
    fun a ha b hb => ?_⟩, fun r mem => ?_⟩, fun r mem tag inside => ?_⟩
  · rcases mem_cons.mp hb with rfl | hb
    · exact behind a ha
    · exact across a ha b hb
  · rcases mem_append.mp mem with old | new
    · exact wellFormed.proper r (mem_append_left _ old)
    · rcases mem_cons.mp new with rfl | old
      · exact proper
      · exact wellFormed.proper r (mem_append_right _ old)
  · rw [← Bool.not_eq_true, SimpleRange.contains_iff]
    rw [SimpleRange.contains_iff] at inside
    rcases mem_append.mp mem with left | right
    · have := behind r left
      omega
    · have := ahead r right
      omega

theorem covers_append {right : List SimpleRange} {tag : ℕ} :
    Covers (left ++ right) tag ↔ Covers left tag ∨ Covers right tag := by
  simp only [Covers, mem_append, or_and_right, exists_or]

theorem covers_cons {ranges : List SimpleRange} {tag : ℕ} :
    Covers (r :: ranges) tag ↔ r.contains tag = true ∨ Covers ranges tag := by
  simp only [Covers, exists_mem_cons_iff]

theorem compact_spec (wellFormed : WellFormed v.active) :
    ∃ active, v.compact = some { v with active } ∧ WellFormed active ∧
      (∀ tag, Covers active tag ↔ Covers v.active tag) ∧
      ((∀ r ∈ v.active, r.start < r.end_) → Compacted active) := by
  obtain ⟨active, maxActive, currentlyActive, maxTag⟩ := v
  cases active with
  | nil => exact ⟨[], rfl, wellFormed, fun _ => Iff.rfl, fun proper => ⟨Pairwise.nil, proper⟩⟩
  | cons first rest =>
    obtain ⟨active, same, wellFormed', -, kept⟩ := compactFrom_spec wellFormed
    exact ⟨active, congrArg (Option.map _) same, wellFormed', kept⟩

/-- The end of an insertion of proper tags, once they have their place. -/
theorem added_spec {active : List SimpleRange} (proper : tags.start ≤ tags.end_)
    (wellFormed : WellFormed active) :
    ∃ v', v.added tags active = some v' ∧ WellFormed v'.active ∧
      (∀ tag, Covers v'.active tag ↔ Covers active tag) ∧
      ((∀ r ∈ active, r.start < r.end_) → Compacted v'.active) ∧
      v'.currentlyActive = v.currentlyActive + (tags.end_ - tags.start) ∧
      v'.maxActive = max v.maxActive v'.currentlyActive ∧
      (1 ≤ tags.end_ → v'.maxTag = (v.updateMax (tags.end_ - 1)).maxTag) := by
  have len : tags.len = some (tags.end_ - tags.start) := if_neg proper.not_gt
  rw [added, len]
  split_ifs with pos
  · obtain ⟨ranges, same, kept⟩ := compact_spec (v := updateMax ⟨active, _, _, v.maxTag⟩ _) wellFormed
    exact ⟨_, same, kept.1, kept.2.1, kept.2.2, rfl, rfl, fun _ => rfl⟩
  · obtain ⟨ranges, same, kept⟩ := compact_spec (v := ⟨active, _, _, v.maxTag⟩) wellFormed
    exact ⟨_, same, kept.1, kept.2.1, kept.2.2, rfl, rfl, fun other => absurd other pos⟩

theorem insertIdx_length_append (left right : List α) (a : α) :
    (left ++ right).insertIdx left.length a = left ++ a :: right := by
  induction left with
  | nil => rfl
  | cons b left ih => exact congrArg (b :: ·) ih

theorem find_cases (v : Validate) (tags : SimpleRange) :
    ∃ left right, v.active = left ++ right ∧
      (∀ r ∈ left, tags.overlaps r = false ∧ r.start < tags.end_) ∧
      (v.find tags = .back ∧ right = [] ∨
        (∃ r rest, right = r :: rest ∧ v.find tags = .before left.length ∧ tags.end_ ≤ r.start) ∨
        ∃ r rest, right = r :: rest ∧ v.find tags = .inside left.length ∧
          v.active[left.length]? = some r ∧ tags.overlaps r = true) := by
  obtain ⟨left, right, split, passed, place⟩ := findFrom_spec tags 0 v.active
  rw [zero_add] at place
  refine ⟨left, right, split, passed, ?_⟩
  rcases place with back | ⟨r, rest, rfl, found, -, before⟩ | ⟨r, rest, rfl, found, overlap⟩
  · exact .inl back
  · exact .inr (.inl ⟨r, rest, rfl, found, before⟩)
  · refine .inr (.inr ⟨r, rest, rfl, found, ?_, overlap⟩)
    rw [split, getElem?_append_right le_rfl, Nat.sub_self]
    rfl

theorem ahead_of_before {rest : List SimpleRange} (wellFormed : WellFormed (left ++ r :: rest))
    (before : tags.end_ ≤ r.start) : ∀ other ∈ r :: rest, tags.end_ ≤ other.start := by
  refine forall_mem_cons.mpr ⟨before, fun other mem => ?_⟩
  have after := (pairwise_cons.mp (pairwise_append.mp wellFormed.sorted).2.1).1 other mem
  have proper := wellFormed.proper r (mem_append_right _ mem_cons_self)
  omega

/-- The tags get a place between the ranges, or they overlap one of them. -/
theorem insert_cases (tags : SimpleRange) (wellFormed : WellFormed v.active) :
    (∃ left right, v.active = left ++ right ∧
      (∀ r ∈ left, tags.overlaps r = false ∧ r.start < tags.end_) ∧ (∀ r ∈ right, tags.end_ ≤ r.start) ∧
      v.insert tags = liftM (v.added tags (left ++ tags :: right))) ∨
    (∃ r ∈ v.active, tags.overlaps r = true) ∧ ∃ message, v.insert tags = throw message := by
  obtain ⟨left, right, split, passed, place⟩ := v.find_cases tags
  unfold insert
  rcases place with ⟨found, rfl⟩ | ⟨r, rest, rfl, found, before⟩ | ⟨r, rest, rfl, found, -, overlap⟩
  · refine .inl ⟨left, [], split, passed, forall_mem_nil _, ?_⟩
    rw [found, split, append_nil]
  · rw [split] at wellFormed
    refine .inl ⟨left, r :: rest, split, passed, ahead_of_before wellFormed before, ?_⟩
    rw [found, split, ← insertIdx_length_append left (r :: rest) tags]
  · rw [found, split]
    exact .inr ⟨⟨r, mem_append_right _ mem_cons_self, overlap⟩, _, rfl⟩

/-- The active tags after an accepted insertion. -/
theorem insert_spec (wellFormed : WellFormed v.active) (ok : v.insert tags = pure v') :
    WellFormed v'.active ∧ (∀ tag, tags.contains tag = true → ¬ Covers v.active tag) ∧
      (∀ tag, Covers v'.active tag ↔ tags.contains tag = true ∨ Covers v.active tag) ∧
      v'.currentlyActive = v.currentlyActive + tags.toList.length ∧
      v'.maxActive = max v.maxActive v'.currentlyActive := by
  rcases insert_cases tags wellFormed with
    ⟨left, right, split, passed, ahead, same⟩ | ⟨-, message, rejected⟩
  · rw [same, liftM_option_eq_pure] at ok
    rw [split] at wellFormed ⊢
    obtain ⟨len, length, -⟩ := Option.bind_eq_some_iff.mp ok
    obtain ⟨inserted, apart⟩ :=
      wellFormed_insert wellFormed (SimpleRange.len_eq_some length) passed ahead
    obtain ⟨_, added, wellFormed', covers, -, current, most, -⟩ :=
      added_spec (SimpleRange.len_eq_some length) inserted
    cases added.symm.trans ok
    rw [SimpleRange.toList, length_range']
    refine ⟨wellFormed', fun tag inside ⟨r, mem, contains⟩ => ?_, fun tag => ?_, current, most⟩
    · cases (apart r mem tag inside).symm.trans contains
    · rw [covers, covers_append, covers_cons, covers_append]
      exact or_left_comm
  · cases rejected.symm.trans ok

/-- The pieces lie inside a range, in order, and have its tags apart from the ones taken. -/
structure Splits (r tags : SimpleRange) (pieces : List SimpleRange) : Prop where
  wellFormed : WellFormed pieces
  within : ∀ piece ∈ pieces, r.start ≤ piece.start ∧ piece.end_ ≤ r.end_
  covers : ∀ tag, Covers pieces tag ↔ r.contains tag = true ∧ ¬ tags.contains tag = true

open Remaining

/-- Proper tags are taken out of a proper range, and leave a gap if there are any. -/
theorem remove_splits (proper : r.start ≤ r.end_) (properTags : tags.start ≤ tags.end_) :
    ∃ remaining, r.remove tags = some remaining ∧ Splits r tags remaining.toList ∧
      (tags.start < tags.end_ → r.start < r.end_ → Compacted remaining.toList) := by
  rw [SimpleRange.remove, SimpleRange.isEmpty_eq proper, SimpleRange.isEmpty_eq properTags]
  simp only [Option.bind_eq_bind, Option.bind_some, beq_iff_eq, Bool.not_eq_true', ← Bool.not_eq_true,
    SimpleRange.overlaps_iff, SimpleRange.strictlyContains_iff]
  split_ifs
  -- the pieces of each branch are explicit, so what is asked of them is arithmetic
  all_goals first
    | exfalso
      omega
    | refine ⟨_, rfl, ⟨⟨?_, ?_⟩, ?_, fun tag => ?_⟩, fun some nonempty => ⟨?_, ?_⟩⟩
  all_goals
    simp only [toList, SimpleRange.new, SimpleRange.contains_iff, Covers, exists_mem_cons_iff,
      forall_mem_cons, pairwise_cons, Pairwise.nil, not_mem_nil, false_and, exists_false, or_false,
      IsEmpty.forall_iff, implies_true, and_true, false_iff]
    try omega

/-- The pieces of one of the ranges take its place, and keep the gaps between the others. -/
theorem sorted_splits (gap : ℕ) {rest pieces : List SimpleRange}
    (sorted : (left ++ r :: rest).Pairwise fun a b => a.end_ + gap ≤ b.start)
    (inner : pieces.Pairwise fun a b => a.end_ + gap ≤ b.start)
    (within : ∀ piece ∈ pieces, r.start ≤ piece.start ∧ piece.end_ ≤ r.end_) :
    (left ++ pieces ++ rest).Pairwise fun a b => a.end_ + gap ≤ b.start := by
  obtain ⟨sortedLeft, sortedRest, across⟩ := pairwise_append.mp sorted
  obtain ⟨after, sortedRest⟩ := pairwise_cons.mp sortedRest
  rw [append_assoc]
  refine pairwise_append.mpr ⟨sortedLeft, pairwise_append.mpr
    ⟨inner, sortedRest, fun a ha b hb => ?_⟩, fun a ha b hb => ?_⟩
  · exact (Nat.add_le_add_right (within a ha).2 gap).trans (after b hb)
  · rcases mem_append.mp hb with piece | other
    · exact (across a ha r mem_cons_self).trans (within b piece).1
    · exact across a ha b (mem_cons_of_mem _ other)

theorem forall_mem_splits {P : SimpleRange → Prop} {rest pieces : List SimpleRange}
    (all : ∀ a ∈ left ++ r :: rest, P a) (inner : ∀ a ∈ pieces, P a) :
    ∀ a ∈ left ++ pieces ++ rest, P a := by
  obtain ⟨before, after⟩ := forall_mem_append.mp all
  exact forall_mem_append.mpr ⟨forall_mem_append.mpr ⟨before, inner⟩, (forall_mem_cons.mp after).2⟩

theorem wellFormed_splits {rest pieces : List SimpleRange}
    (wellFormed : WellFormed (left ++ r :: rest)) (splits : Splits r tags pieces) :
    WellFormed (left ++ pieces ++ rest) :=
  ⟨sorted_splits 0 wellFormed.sorted splits.wellFormed.sorted splits.within,
    forall_mem_splits wellFormed.proper splits.wellFormed.proper⟩

/-- The tags of one range are in no other. -/
theorem not_covers_others {rest : List SimpleRange} {tag : ℕ}
    (wellFormed : WellFormed (left ++ r :: rest)) (inside : r.contains tag = true) :
    ¬ Covers left tag ∧ ¬ Covers rest tag := by
  obtain ⟨-, sortedRest, across⟩ := pairwise_append.mp wellFormed.sorted
  rw [SimpleRange.contains_iff] at inside
  refine ⟨fun ⟨other, mem, contains⟩ => ?_, fun ⟨other, mem, contains⟩ => ?_⟩
  · have := across other mem r mem_cons_self
    rw [SimpleRange.contains_iff] at contains
    omega
  · have := (pairwise_cons.mp sortedRest).1 other mem
    rw [SimpleRange.contains_iff] at contains
    omega

theorem splice_append (left rest : List SimpleRange) (r : SimpleRange) (remaining : Remaining) :
    splice (left ++ r :: rest) left.length remaining = left ++ remaining.toList ++ rest := by
  cases remaining with
  | none => simp [splice, toList, eraseIdx_append_of_length_le]
  | one piece => simp [splice, toList]
  | two first last => simp [splice, toList]

/-- An accepted deletion takes tags of one range away. -/
theorem delete_cases (ok : v.delete tags = pure v') :
    ∃ left r rest remaining, v.active = left ++ r :: rest ∧ r.strictlyContains tags = true ∧
      tags.start ≤ tags.end_ ∧ r.remove tags = some remaining ∧
      v'.active = left ++ remaining.toList ++ rest ∧
      v'.currentlyActive + tags.toList.length = v.currentlyActive ∧ v'.maxActive = v.maxActive := by
  obtain ⟨left, right, split, -, place⟩ := v.find_cases tags
  unfold delete at ok
  rcases place with ⟨found, -⟩ | ⟨r, rest, -, found, -⟩ | ⟨r, rest, rfl, found, entry, -⟩ <;>
    rw [found] at ok
  · cases ok
  · cases ok
  · simp only [entry] at ok
    split_ifs at ok with apart
    · cases ok
    · obtain ⟨remaining, removed, ok⟩ := bind_eq_pure.mp ok
      obtain ⟨len, length, ok⟩ := bind_eq_pure.mp ok
      split_ifs at ok with underflow
      · cases ok
      · obtain rfl := Except.ok.inj (Option.some.inj ok)
        simp only [Bool.not_eq_true, Bool.not_eq_false'] at apart
        rw [liftM_option_eq_pure] at length
        have proper := SimpleRange.len_eq_some length
        cases (if_neg proper.not_gt).symm.trans length
        refine ⟨left, r, rest, remaining, split, apart, proper, liftM_option_eq_pure.mp removed, ?_, ?_, rfl⟩
        · rw [split, splice_append]
        · rw [SimpleRange.toList, length_range']
          exact Nat.sub_add_cancel (not_lt.mp underflow)

theorem delete_spec (wellFormed : WellFormed v.active) (ok : v.delete tags = pure v') :
    WellFormed v'.active ∧ (∀ tag, tags.contains tag = true → Covers v.active tag) ∧
      (∀ tag, Covers v'.active tag ↔ Covers v.active tag ∧ ¬ tags.contains tag = true) ∧
      v'.currentlyActive + tags.toList.length = v.currentlyActive ∧ v'.maxActive = v.maxActive := by
  obtain ⟨left, r, rest, remaining, split, strictly, proper, removed, active, counts⟩ := delete_cases ok
  rw [split] at wellFormed
  obtain ⟨_, removed', splits, -⟩ :=
    remove_splits (wellFormed.proper r (mem_append_right _ mem_cons_self)) proper
  cases removed'.symm.trans removed
  have inside : ∀ tag, tags.contains tag = true → r.contains tag = true := by
    intro tag
    rw [SimpleRange.strictlyContains_iff] at strictly
    simp only [SimpleRange.contains_iff]
    omega
  rw [active, split]
  refine ⟨wellFormed_splits wellFormed splits, fun tag taken => ?_, fun tag => ?_, counts⟩
  · exact covers_append.mpr (.inr (covers_cons.mpr (.inl (inside tag taken))))
  · rw [covers_append, covers_append, covers_append, covers_cons, splits.covers]
    have others : tags.contains tag = true → ¬ Covers left tag ∧ ¬ Covers rest tag := fun taken =>
      not_covers_others wellFormed (inside tag taken)
    tauto

/-- Only active tags are replaced. -/
theorem replace_spec (ok : v.replace tags = pure v') :
    v' = v ∧ ∀ tag, tags.contains tag = true → Covers v.active tag := by
  obtain ⟨left, right, split, -, place⟩ := v.find_cases tags
  unfold replace at ok
  rcases place with ⟨found, -⟩ | ⟨r, rest, -, found, -⟩ | ⟨r, rest, rfl, found, entry, -⟩ <;>
    rw [found] at ok
  · cases ok
  · cases ok
  · simp only [entry] at ok
    split_ifs at ok with apart
    · cases ok
    · refine ⟨(Except.ok.inj (Option.some.inj ok)).symm, fun tag inside => ⟨r, ?_, ?_⟩⟩
      · rw [split]
        exact mem_append_right _ mem_cons_self
      · simp only [Bool.not_eq_true, Bool.not_eq_false', SimpleRange.strictlyContains_iff] at apart
        rw [SimpleRange.contains_iff] at inside ⊢
        omega

end Validate

/-! ## The set of active tags -/

/-- What the validation is about: the active tags, all tags inserted so far, and the sizes the set of
active tags has had. -/
structure TagSet where
  active : Finset ℕ
  inserted : Finset ℕ
  sizes : Finset ℕ

def SimpleRange.tags (r : SimpleRange) : Finset ℕ := Finset.Ico r.start r.end_

namespace TagSet

def new : TagSet := ⟨∅, ∅, {0}⟩

def moved (m : TagSet) (active inserted : Finset ℕ) : TagSet :=
  ⟨active, inserted, insert active.card m.sizes⟩

/-- Inserted tags have to be free, replaced and deleted ones active. -/
def stage (m : TagSet) : Stage → Option TagSet
  | .search _ => some m
  | .insert ids =>
      if Disjoint m.active ids.tags then
        some (m.moved (m.active ∪ ids.tags) (m.inserted ∪ ids.tags))
      else none
  | .replace _ ids => if ids.tags ⊆ m.active then some m else none
  | .delete ids => if ids.tags ⊆ m.active then some (m.moved (m.active \ ids.tags) m.inserted) else none

def attempt (m : TagSet) (s : Stage) : TagSet := (m.stage s).getD m

end TagSet

/-- The check of the runbook's parser on the tags of a stage. -/
def Stage.Proper : Stage → Prop
  | .search _ => True
  | .insert ids | .replace _ ids | .delete ids => ids.start < ids.end_

/-- A caller that goes on after a stage is rejected. -/
def Validate.attempt (v : Validate) (s : Stage) : Option Validate :=
  (v.stage s).run.map fun
    | .ok v' => v'
    | .error _ => v

structure Refines (v : Validate) (m : TagSet) : Prop where
  compacted : Compacted v.active
  covers : ∀ tag, tag ∈ m.active ↔ Covers v.active tag
  current : v.currentlyActive = m.active.card
  reached : m.active.card ∈ m.sizes
  most : v.maxActive = m.sizes.sup id
  last : v.maxTag = m.inserted.max

/-- The answer of the validation is the one of the set, and what is accepted refines it again. -/
def Answers (answer : Option (Except String Validate)) : Option TagSet → Prop
  | none => ∃ message, answer = some (.error message)
  | some m => ∃ v, answer = some (.ok v) ∧ Refines v m

namespace Validate

variable {tags : SimpleRange} {v : Validate} {m : TagSet} {tag : ℕ}

theorem mem_tags : tag ∈ tags.tags ↔ tags.contains tag = true := by
  rw [SimpleRange.tags, Finset.mem_Ico, SimpleRange.contains_iff]

variable (refines : Refines v m)
include refines

variable (proper : tags.start < tags.end_)
include proper

/-- The tags are all active and in one range, which the lookup finds, or one of them is not active and
no range that the lookup finds has all of them. -/
theorem find_strictly_or :
    (tags.tags ⊆ m.active ∧ ∃ left r rest, v.active = left ++ r :: rest ∧
        v.find tags = .inside left.length ∧ v.active[left.length]? = some r ∧
        r.strictlyContains tags = true) ∨
      ¬ tags.tags ⊆ m.active ∧
        ∀ i, v.find tags = .inside i → ∃ r, v.active[i]? = some r ∧ r.strictlyContains tags = false := by
  obtain ⟨left, right, split, passed, place⟩ := v.find_cases tags
  have wellFormed := refines.compacted.wellFormed
  have sorted := refines.compacted.sorted
  rw [split] at wellFormed sorted
  -- a tag that none of the ranges left has is missing
  have missing : ∀ tag, tags.contains tag = true → (∀ r ∈ right, r.contains tag = false) →
      ¬ tags.tags ⊆ m.active := by
    intro tag inside free all
    obtain ⟨r, mem, contains⟩ := (refines.covers tag).mp (all (mem_tags.mpr inside))
    rw [split] at mem
    rcases mem_append.mp mem with behind | ahead
    · have apart := (passed r behind).1
      rw [← Bool.not_eq_true, SimpleRange.overlaps_iff] at apart
      rw [SimpleRange.contains_iff] at inside contains
      omega
    · cases (free r ahead).symm.trans contains
  have before : ∀ tag (r : SimpleRange), tag < r.start → r.contains tag = false := by
    intro tag r less
    rw [← Bool.not_eq_true, SimpleRange.contains_iff]
    omega
  have own : tags.contains tags.start = true := by
    rw [SimpleRange.contains_iff]
    omega
  rcases place with ⟨found, rfl⟩ | ⟨r, rest, rfl, found, bound⟩ | ⟨r, rest, rfl, found, entry, overlap⟩
  · exact .inr ⟨missing _ own (forall_mem_nil _), fun i inside => nomatch found.symm.trans inside⟩
  · refine .inr ⟨missing _ own fun other mem => before _ _ ?_,
      fun i inside => nomatch found.symm.trans inside⟩
    exact proper.trans_le (ahead_of_before wellFormed bound other mem)
  · have later := (pairwise_cons.mp (pairwise_append.mp sorted).2.1).1
    have nonempty := refines.compacted.proper r (mem_of_getElem? entry)
    rw [SimpleRange.overlaps_iff] at overlap
    cases strictly : r.strictlyContains tags with
    | true =>
      refine .inl ⟨fun tag mem => (refines.covers tag).mpr ⟨r, mem_of_getElem? entry, ?_⟩,
        left, r, rest, split, found, entry, strictly⟩
      rw [SimpleRange.strictlyContains_iff] at strictly
      rw [mem_tags, SimpleRange.contains_iff] at mem
      rw [SimpleRange.contains_iff]
      omega
    | false =>
      refine .inr ⟨?_, fun i inside => ⟨r, ?_, strictly⟩⟩
      · rw [← Bool.not_eq_true, SimpleRange.strictlyContains_iff] at strictly
        rcases lt_or_ge tags.start r.start with outside | inside
        · refine missing _ own (forall_mem_cons.mpr ⟨before _ _ outside, fun other mem => ?_⟩)
          have := later other mem
          exact before _ _ (by omega)
        · -- no range starts right behind one that has been compacted
          refine missing r.end_ ?_ (forall_mem_cons.mpr ⟨?_, fun other mem => ?_⟩)
          · rw [SimpleRange.contains_iff]
            omega
          · simp [SimpleRange.contains]
          · exact before _ _ (later other mem)
      · cases found.symm.trans inside
        exact entry

omit proper in
omit refines in
theorem updateMax_last (last : v.maxTag = m.inserted.max) (proper : tags.start < tags.end_) :
    (v.updateMax (tags.end_ - 1)).maxTag = (m.inserted ∪ tags.tags).max := by
  have own : tags.tags.max = WithBot.some (tags.end_ - 1) := by
    refine le_antisymm (Finset.max_le fun tag mem => ?_) (Finset.le_max ?_)
    · rw [SimpleRange.tags, Finset.mem_Ico] at mem
      exact WithBot.coe_le_coe.mpr (by omega)
    · rw [SimpleRange.tags, Finset.mem_Ico]
      omega
  rw [Finset.max_union, own]
  unfold updateMax
  rw [last]
  cases m.inserted.max with
  | bot => rfl
  | coe most => exact (WithBot.coe_max most _).symm

theorem insert_answers :
    Answers (v.insert tags) (m.stage (.insert tags)) := by
  have wellFormed := refines.compacted.wellFormed
  rcases insert_cases tags wellFormed with
    ⟨left, right, split, passed, ahead, same⟩ | ⟨⟨r, mem, overlap⟩, message, rejected⟩
  · rw [split] at wellFormed
    obtain ⟨v', added, -, -, compacted, current, most, last⟩ := added_spec proper.le
      (wellFormed_insert wellFormed proper.le passed ahead).1
    have ok : v.insert tags = pure v' := same.trans (liftM_option_eq_pure.mpr added)
    obtain ⟨-, apart, covers, -⟩ := insert_spec refines.compacted.wellFormed ok
    have free : Disjoint m.active tags.tags := Finset.disjoint_right.mpr fun tag new active =>
      apart tag (mem_tags.mp new) ((refines.covers tag).mp active)
    have card : v'.currentlyActive = (m.active ∪ tags.tags).card := by
      rw [current, refines.current, Finset.card_union_of_disjoint free, SimpleRange.tags, Nat.card_Ico]
    rw [TagSet.stage, if_pos free]
    refine ⟨v', ok, compacted fun r mem => ?_, fun tag => ?_, card,
      Finset.mem_insert_self _ _, ?_, ?_⟩
    · rcases mem_cons.mp (perm_middle.mem_iff.mp mem) with rfl | old
      · exact proper
      · exact refines.compacted.proper r (split ▸ old)
    · change tag ∈ m.active ∪ tags.tags ↔ _
      rw [covers, Finset.mem_union, refines.covers, mem_tags]
      exact or_comm
    · rw [most, refines.most, card, max_comm]
      exact (Finset.sup_insert (f := id)).symm
    · exact (last (by omega)).trans (updateMax_last refines.last proper)
  · rw [TagSet.stage, if_neg]
    · exact ⟨message, rejected⟩
    · -- both ranges have the larger of the two starts
      rw [SimpleRange.overlaps_iff] at overlap
      have nonempty := refines.compacted.proper r mem
      refine Finset.not_disjoint_iff.mpr ⟨max tags.start r.start,
        (refines.covers _).mpr ⟨r, mem, ?_⟩, mem_tags.mpr ?_⟩ <;>
        rw [SimpleRange.contains_iff] <;> omega

theorem replace_answers (offsets : SimpleRange) :
    Answers (v.replace tags) (m.stage (.replace offsets tags)) := by
  rw [TagSet.stage]
  rcases find_strictly_or refines proper with
    ⟨all, left, r, rest, -, found, entry, strictly⟩ | ⟨missing, other⟩
  · rw [if_pos all]
    refine ⟨v, ?_, refines⟩
    simp only [replace, found, entry, strictly]
    rfl
  · rw [if_neg missing]
    unfold replace
    cases found : v.find tags with
    | back => exact ⟨_, rfl⟩
    | before i => exact ⟨_, rfl⟩
    | inside i =>
      obtain ⟨r, entry, apart⟩ := other i found
      simp only [entry, apart]
      exact ⟨_, rfl⟩

theorem delete_answers :
    Answers (v.delete tags) (m.stage (.delete tags)) := by
  rw [TagSet.stage]
  rcases find_strictly_or refines proper with
    ⟨all, left, r, rest, split, found, entry, strictly⟩ | ⟨missing, other⟩
  · have nonempty := refines.compacted.proper
    have sorted := refines.compacted.sorted
    rw [split] at nonempty sorted
    have here := nonempty r (mem_append_right _ mem_cons_self)
    obtain ⟨remaining, removed, splits, compacted⟩ := remove_splits here.le proper.le
    have len : tags.len = some (tags.end_ - tags.start) := if_neg proper.not_gt
    have card : tags.tags.card = tags.end_ - tags.start := Nat.card_Ico _ _
    have enough : ¬ v.currentlyActive < tags.end_ - tags.start := by
      rw [refines.current, not_lt, ← card]
      exact Finset.card_le_card all
    have ok : v.delete tags = pure { v with
        active := left ++ remaining.toList ++ rest
        currentlyActive := v.currentlyActive - (tags.end_ - tags.start) } := by
      simp only [delete, found, entry, strictly, removed, len]
      rw [← splice_append left rest r remaining, ← split]
      exact if_neg enough
    obtain ⟨-, -, covers, -⟩ := delete_spec refines.compacted.wellFormed ok
    have size : (m.active \ tags.tags).card = m.active.card - (tags.end_ - tags.start) := by
      rw [Finset.card_sdiff_of_subset all, card]
    rw [if_pos all]
    refine ⟨_, ok, ⟨sorted_splits 1 sorted (compacted proper here).sorted splits.within,
      forall_mem_splits nonempty (compacted proper here).proper⟩, fun tag => ?_, ?_,
      Finset.mem_insert_self _ _, ?_, refines.last⟩
    · change tag ∈ m.active \ tags.tags ↔ _
      rw [covers, Finset.mem_sdiff, refines.covers, mem_tags]
    · rw [refines.current]
      exact size.symm
    · have smaller : (m.active \ tags.tags).card ≤ m.sizes.sup id :=
        (Finset.card_le_card Finset.sdiff_subset).trans (Finset.le_sup (f := id) refines.reached)
      exact refines.most.trans ((sup_eq_right.mpr smaller).symm.trans (Finset.sup_insert (f := id)).symm)
  · rw [if_neg missing]
    unfold delete
    cases found : v.find tags with
    | back => exact ⟨_, rfl⟩
    | before i => exact ⟨_, rfl⟩
    | inside i =>
      obtain ⟨r, entry, apart⟩ := other i found
      simp only [entry, apart]
      exact ⟨_, rfl⟩

omit proper

theorem stage_answers {s : Stage} (proper : s.Proper) :
    Answers (v.stage s) (m.stage s) := by
  cases s with
  | search _ => exact ⟨v, rfl, refines⟩
  | insert ids => exact insert_answers refines proper
  | replace offsets ids => exact replace_answers refines proper offsets
  | delete ids => exact delete_answers refines proper

theorem attempt_refines {s : Stage} (proper : s.Proper) :
    ∃ v', v.attempt s = some v' ∧ Refines v' (m.attempt s) := by
  have answers := stage_answers refines proper
  unfold attempt TagSet.attempt
  cases model : m.stage s with
  | none =>
    rw [model] at answers
    obtain ⟨message, rejected⟩ := answers
    exact ⟨v, by rw [rejected]; rfl, refines⟩
  | some m' =>
    rw [model] at answers
    obtain ⟨v', ok, refines'⟩ := answers
    exact ⟨v', by rw [ok]; rfl, refines'⟩

end Validate

/-- Over every sequence of stages the validation gives the answers of the set, no assertion fails, and
the ranges and the counters are the ones of the set. -/
theorem validate_refines_tagSet (stages : List Stage) (proper : ∀ s ∈ stages, s.Proper) :
    ∃ v, stages.foldlM Validate.attempt .new = some v ∧ Refines v (stages.foldl TagSet.attempt .new) ∧
      ∀ s, s.Proper → Answers (v.stage s) ((stages.foldl TagSet.attempt .new).stage s) := by
  induction stages using reverseRecOn with
  | nil =>
    have start : Refines .new .new := ⟨⟨Pairwise.nil, forall_mem_nil _⟩,
      by simp [Validate.new, TagSet.new, Covers], rfl, Finset.mem_singleton_self 0, rfl, rfl⟩
    exact ⟨_, rfl, start, fun s proper => Validate.stage_answers start proper⟩
  | append_singleton stages s ih =>
    rw [forall_mem_append, forall_mem_singleton] at proper
    obtain ⟨v, ran, refines, -⟩ := ih proper.1
    obtain ⟨v', next, refines'⟩ := Validate.attempt_refines refines proper.2
    rw [foldl_append, foldlM_append, ran]
    exact ⟨v', by simpa using next, refines', fun s proper => Validate.stage_answers refines' proper⟩

theorem validate_refines_tagSet_two : ∃ v, [Stage.insert ⟨0, 4⟩, .delete ⟨1, 3⟩].foldlM
    Validate.attempt .new = some v ∧ v.active = [⟨0, 1⟩, ⟨3, 4⟩] ∧ v.currentlyActive = 2 := by
  obtain ⟨v, ran, -⟩ := validate_refines_tagSet [.insert ⟨0, 4⟩, .delete ⟨1, 3⟩]
    (by simp [Stage.Proper])
  cases ran
  exact ⟨_, rfl, rfl, rfl⟩

end DiskAnn.Streaming
