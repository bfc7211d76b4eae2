import DiskAnn.Data.EvenSplit

/-! # Chunk offsets

`ChunkOffsetsBase` of `views.rs`: where the chunks of a vector start, and `partition` and `partition_into`,
which build offsets without the checks of `new`.
-/

namespace DiskAnn.Quantization

open List

inductive ChunkOffsetError
  | lengthNotAtLeastTwo (len : ℕ)
  | doesNotBeginWithZero (start : ℕ)
  | nonMonotonic (startVal start nextVal : ℕ)
  deriving DecidableEq

structure PartitionError where
  numChunks : ℕ
  dim : ℕ
  deriving DecidableEq

inductive PartitionIntoError
  | scratchTooSmall (len : ℕ)
  | partitionError (error : PartitionError)
  deriving DecidableEq

structure ChunkOffsets where
  dim : ℕ+
  offsets : List ℕ
  deriving DecidableEq

namespace ChunkOffsets

/-- The loop of `new` from entry `i` on, after the entry `last`. -/
def newLoop (i : ℕ) (last : ℕ+) : List ℕ → Except ChunkOffsetError ℕ+
  | [] => .ok last
  | nextVal :: rest =>
    if pos : 0 < nextVal then
      if last ≥ nextVal then .error (.nonMonotonic last (i - 1) nextVal)
      else newLoop (i + 1) ⟨nextVal, pos⟩ rest
    else .error (.nonMonotonic last (i - 1) 0)

def new (offsets : List ℕ) : Except ChunkOffsetError ChunkOffsets :=
  match offsets with
  | start :: second :: rest =>
    if start ≠ 0 then .error (.doesNotBeginWithZero start)
    else if pos : 0 < second then (newLoop 2 ⟨second, pos⟩ rest).map (⟨·, offsets⟩)
    else .error (.nonMonotonic start 0 0)
  | _ => .error (.lengthNotAtLeastTwo offsets.length)

/-- A round of `fill_chunk_offsets`. -/
def fillStep (dimensions numChunks : ℕ) : ℕ × List ℕ → ℕ → ℕ × List ℕ
  | (chunkOffset, offsets), chunkIndex =>
    let chunkOffset := chunkOffset + dimensions / numChunks
    let chunkOffset := if chunkIndex < dimensions % numChunks then chunkOffset + 1 else chunkOffset
    (chunkOffset, offsets.set (chunkIndex + 1) chunkOffset)

def fillChunkOffsets (dimensions : ℕ+) (offsets : List ℕ) : List ℕ :=
  let numChunks := offsets.length - 1
  ((range numChunks).foldl (fillStep dimensions numChunks) (0, offsets.set 0 0)).2

def partition (dim numChunks : ℕ+) : Except PartitionError ChunkOffsets :=
  if numChunks > dim then .error ⟨numChunks, dim⟩
  else .ok ⟨dim, fillChunkOffsets dim (replicate (numChunks + 1) 0)⟩

def partitionInto (dim : ℕ+) (scratch : List ℕ) : Except PartitionIntoError ChunkOffsets :=
  if scratch.length < 2 then .error (.scratchTooSmall scratch.length)
  else if scratch.length - 1 > dim then .error (.partitionError ⟨scratch.length - 1, dim⟩)
  else .ok ⟨dim, fillChunkOffsets dim scratch⟩

/-- The length of a chunk. -/
def size (self : ChunkOffsets) (i : ℕ) : ℕ := self.offsets.getD (i + 1) 0 - self.offsets.getD i 0

/-- What `new` makes of its own offsets, with larger chunks first and no two sizes far apart. -/
structure Balanced (dim : ℕ+) (numChunks : ℕ) (self : ChunkOffsets) : Prop where
  accepted : new self.offsets = .ok self
  dim_eq : self.dim = dim
  length_eq : self.offsets.length = numChunks + 1
  sizes : ∀ i j, i ≤ j → j < numChunks → self.size j ≤ self.size i ∧ self.size i ≤ self.size j + 1

variable {dim : ℕ+} {numChunks : ℕ} {offsets : List ℕ} {offset : ℕ → ℕ}

theorem fold_fillStep (dim : ℕ+) (numChunks k : ℕ) (room : k < offsets.length) :
    ∃ filled, (range k).foldl (fillStep dim numChunks) (0, offsets.set 0 0) = (evenOffset dim numChunks k, filled) ∧
      filled.length = offsets.length ∧ ∀ i ≤ k, filled[i]? = some (evenOffset dim numChunks i) := by
  induction k with
  | zero =>
    refine ⟨_, by simp [evenOffset]; rfl, length_set, fun i first => ?_⟩
    obtain rfl := Nat.le_zero.mp first
    simp [evenOffset, room]
  | succ k ih =>
    obtain ⟨filled, same, sized, entries⟩ := ih (by omega)
    have step : fillStep dim numChunks (evenOffset dim numChunks k, filled) k =
        (evenOffset dim numChunks (k + 1), filled.set (k + 1) (evenOffset dim numChunks (k + 1))) := by
      rw [evenOffset_succ, fillStep]
      split_ifs <;> rfl
    refine ⟨_, by rw [range_succ, foldl_append, same, foldl_cons, step, foldl_nil], length_set.trans sized,
      fun i inside => ?_⟩
    obtain rfl | before := inside.eq_or_lt
    · exact getElem?_set_self (sized ▸ room)
    · rw [getElem?_set_ne (by omega)]
      exact entries i (by omega)

/-- The offsets of an even split, whatever the scratch held. -/
theorem fillChunkOffsets_eq (sized : offsets.length = numChunks + 1) :
    fillChunkOffsets dim offsets = (range (numChunks + 1)).map (evenOffset dim numChunks) := by
  obtain ⟨filled, same, kept, entries⟩ :=
    fold_fillStep dim numChunks numChunks (show numChunks < offsets.length by omega)
  rw [fillChunkOffsets, sized, Nat.add_sub_cancel, same]
  refine ext_getElem? fun i => ?_
  by_cases inside : i ≤ numChunks
  · simp [entries i inside, Nat.lt_succ_of_le inside]
  · simp [kept, sized, inside]

theorem newLoop_eq_ok (increasing : StrictMono offset) (i j k : ℕ) (last : ℕ+) (at_last : last = offset j) :
    ∃ found : ℕ+, newLoop i last ((range' (j + 1) k).map offset) = .ok found ∧ found = offset (j + k) := by
  induction k generalizing i j last with
  | zero => exact ⟨last, rfl, at_last⟩
  | succ k ih =>
    have less : last < offset (j + 1) := at_last ▸ increasing j.lt_succ_self
    have pos : 0 < offset (j + 1) := by omega
    rw [range'_succ, map_cons, newLoop, dif_pos pos, if_neg less.not_ge, Nat.add_comm k, ← Nat.add_assoc]
    exact ih (i + 1) (j + 1) ⟨_, pos⟩ rfl

theorem new_eq_ok (increasing : StrictMono offset) (first : offset 0 = 0) (k : ℕ) (last : offset (k + 1) = dim) :
    new ((range (k + 2)).map offset) = .ok ⟨dim, (range (k + 2)).map offset⟩ := by
  have pos : 0 < offset 1 := first ▸ increasing Nat.zero_lt_one
  obtain ⟨found, ran, same⟩ := newLoop_eq_ok increasing 2 1 k ⟨_, pos⟩ rfl
  obtain rfl : found = dim := PNat.eq (by rw [same, Nat.add_comm, last])
  have entries : (range (k + 2)).map offset = 0 :: offset 1 :: (range' 2 k).map offset := by
    rw [range_eq_range', range'_succ, range'_succ, map_cons, map_cons, first]
  rw [entries, new, if_neg (not_not.mpr rfl), dif_pos pos, ran]
  rfl

theorem balanced (some_chunk : 0 < numChunks) (le : numChunks ≤ dim) (sized : offsets.length = numChunks + 1) :
    Balanced dim numChunks ⟨dim, fillChunkOffsets dim offsets⟩ := by
  rw [fillChunkOffsets_eq sized]
  refine ⟨?_, rfl, by simp, fun i j before inside => ?_⟩
  · obtain ⟨k, rfl⟩ := Nat.exists_eq_succ_of_ne_zero some_chunk.ne'
    exact new_eq_ok (evenOffset_strictMono some_chunk le) (by simp [evenOffset]) k (evenOffset_last some_chunk)
  · have entry (i : ℕ) (inside : i < numChunks) :
        size ⟨dim, (range (numChunks + 1)).map (evenOffset dim numChunks)⟩ i =
          dim / numChunks + if i < dim % numChunks then 1 else 0 := by
      simp [size, inside, Nat.lt_succ_of_lt inside, evenOffset_succ]
    rw [entry i (by omega), entry j inside]
    split_ifs <;> omega

/-- `partition` and `partition_into` succeed if there are no more chunks than dimensions, and what they build
without a check is what `new` builds from the same offsets. -/
theorem partition_balanced (dim : ℕ+) :
    (∀ numChunks, ((∃ self, partition dim numChunks = .ok self) ↔ numChunks ≤ dim) ∧
      ∀ self, partition dim numChunks = .ok self → self.Balanced dim numChunks) ∧
    ∀ scratch, ((∃ self, partitionInto dim scratch = .ok self) ↔ 2 ≤ scratch.length ∧ scratch.length - 1 ≤ dim) ∧
      ∀ self, partitionInto dim scratch = .ok self → self.Balanced dim (scratch.length - 1) := by
  refine ⟨fun numChunks => ?_, fun scratch => ?_⟩
  · unfold partition
    split_ifs with more
    · simpa using more
    · simpa [not_lt.mp more] using balanced numChunks.pos (not_lt.mp more) length_replicate
  · unfold partitionInto
    split_ifs with short more
    · simp [short]
    · simp
      omega
    · have two := not_lt.mp short
      simpa [two, not_lt.mp more] using @balanced dim _ scratch (by omega) (not_lt.mp more) (by omega)

end ChunkOffsets

end DiskAnn.Quantization
