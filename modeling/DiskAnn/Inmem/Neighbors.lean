import DiskAnn.Data.Bytes

/-! # Adjacency lists in one allocation

`neighbors.rs`: every list has a row of words, its length and then its entries. `Table` is what the rows
stand for.
-/

namespace DiskAnn.Inmem

open List Function Nat

/-! ## Rows -/

/-- The words of the buffer, row after row. -/
structure Neighbors where
  entries : ℕ
  maxLength : ℕ
  memory : List (BitVec 32)
  maxLength_lt : maxLength < 2 ^ 32
  length_memory : memory.length = entries * (maxLength + 1)

inductive NeighborsError
  | overflow (maxLength : BitVec 32)
  | allocationFailed
  deriving DecidableEq, Repr

/-- `OutOfBounds` and `TooLong`, as the calls return them. -/
inductive AccessError
  | outOfBounds (i : ℕ)
  | tooLong (got max : ℕ)
  deriving DecidableEq, Repr

namespace Neighbors

variable (n : Neighbors)

/-- The words of a row. -/
def stride : ℕ := n.maxLength + 1

/-- A buffer of zeros, if the allocation is at most `isize::MAX` bytes with its alignment of 128. -/
def new (entries maxLength : BitVec 32) : Except NeighborsError Neighbors :=
  if entries.toNat * ((maxLength.toNat + 1) * 4) ≤ 2 ^ 63 - 128 then
    .ok {
      entries := entries.toNat
      maxLength := maxLength.toNat
      memory := replicate (entries.toNat * (maxLength.toNat + 1)) 0
      maxLength_lt := maxLength.isLt
      length_memory := length_replicate }
  else .error .allocationFailed

/-- The length in the first word of a row, clamped. -/
def len (i : ℕ) : ℕ := min (n.memory.getD (i * n.stride) 0).toNat n.maxLength

/-- Copy the entries of a list. -/
def get (i : ℕ) : Except AccessError (List (BitVec 32)) :=
  if i < n.entries then .ok ((n.memory.drop (i * n.stride + 1)).take (n.len i))
  else .error (.outOfBounds i)

variable {n} in
theorem row_le {i : ℕ} (inside : i < n.entries) : i * n.stride + n.stride ≤ n.memory.length := by
  rw [n.length_memory, ← succ_mul]
  exact mul_le_mul_right _ inside

variable {n} in
theorem put_le {i skip : ℕ} {data : List (BitVec 32)} (inside : i < n.entries)
    (fits : skip + data.length ≤ n.maxLength) :
    i * n.stride + 1 + skip + data.length ≤ n.memory.length := by
  have row := row_le inside
  unfold stride at row ⊢
  omega

/-- Copy entries behind the first `skip` ones of a row, and write the length. -/
def put (i skip : ℕ) (data : List (BitVec 32)) (inside : i < n.entries)
    (fits : skip + data.length ≤ n.maxLength) : Neighbors :=
  { n with
    memory := (n.memory.overwrite (i * n.stride + 1 + skip) data).overwrite (i * n.stride)
      [BitVec.ofNat 32 (skip + data.length)]
    length_memory := by
      have row := row_le inside
      have copied := length_overwrite (put_le inside fits)
      rw [length_overwrite, copied, n.length_memory]
      rw [copied, length_singleton]
      unfold stride at row ⊢
      omega }

/-- The answer and the buffer after the call. -/
def set (i : ℕ) (neighbors : List (BitVec 32)) : Except AccessError Unit × Neighbors :=
  if inside : i < n.entries then
    if short : neighbors.length ≤ n.maxLength then
      (.ok (), n.put i 0 neighbors inside (Nat.zero_add _ ▸ short))
    else (.error (.tooLong neighbors.length n.maxLength), n)
  else (.error (.outOfBounds i), n)

/-- `saturating_add` -/
def saturatingAdd (a b : ℕ) : ℕ := min (a + b) (2 ^ 64 - 1)

/-- `lock(i)?.append(neighbors)` -/
def append (i : ℕ) (neighbors : List (BitVec 32)) : Except AccessError Unit × Neighbors :=
  if inside : i < n.entries then
    let newlen := saturatingAdd (n.len i) neighbors.length
    if short : newlen ≤ n.maxLength then
      (.ok (), n.put i (n.len i) neighbors inside (by
        have range := n.maxLength_lt
        simp only [newlen, saturatingAdd] at short
        omega))
    else (.error (.tooLong newlen n.maxLength), n)
  else (.error (.outOfBounds i), n)

end Neighbors

/-! ## What the rows stand for -/

/-- A list for every slot. -/
abbrev Table := ℕ → List (BitVec 32)

inductive Op
  | get (i : ℕ)
  | set (i : ℕ) (neighbors : List (BitVec 32))
  | append (i : ℕ) (neighbors : List (BitVec 32))

def Op.slot : Op → ℕ
  | get i | set i _ | append i _ => i

/-- What a call answers: the list, if it is `get`. -/
abbrev Answer := Except AccessError (Option (List (BitVec 32)))

/-- A call on the rows. -/
def Neighbors.step (n : Neighbors) : Op → Answer × Neighbors
  | .get i => ((n.get i).map some, n)
  | .set i neighbors => ((n.set i neighbors).1.map fun _ => none, (n.set i neighbors).2)
  | .append i neighbors => ((n.append i neighbors).1.map fun _ => none, (n.append i neighbors).2)

/-- A call on the lists. -/
def Table.step (entries maxLength : ℕ) (t : Table) : Op → Answer × Table
  | .get i => (if i < entries then .ok (some (t i)) else .error (.outOfBounds i), t)
  | .set i neighbors =>
      if i < entries then
        if neighbors.length ≤ maxLength then (.ok none, update t i neighbors)
        else (.error (.tooLong neighbors.length maxLength), t)
      else (.error (.outOfBounds i), t)
  | .append i neighbors =>
      if i < entries then
        if (t i ++ neighbors).length ≤ maxLength then
          (.ok none, update t i (t i ++ neighbors))
        else (.error (.tooLong (Neighbors.saturatingAdd (t i).length neighbors.length) maxLength), t)
      else (.error (.outOfBounds i), t)

/-- The rows hold the lists. -/
structure Neighbors.Holds (n : Neighbors) (t : Table) : Prop where
  short : ∀ i < n.entries, (t i).length ≤ n.maxLength
  length : ∀ i < n.entries, n.memory[i * n.stride]? = some (BitVec.ofNat 32 (t i).length)
  entry : ∀ i < n.entries, ∀ k < (t i).length, n.memory[i * n.stride + 1 + k]? = (t i)[k]?

namespace Neighbors

variable {n : Neighbors} {t : Table} {i : ℕ}

theorem Holds.len_eq (holds : n.Holds t) (inside : i < n.entries) : n.len i = (t i).length := by
  have short := holds.short i inside
  have range := n.maxLength_lt
  rw [len, getD_eq_getElem?_getD, holds.length i inside, Option.getD_some, BitVec.toNat_ofNat]
  omega

theorem Holds.get_eq (holds : n.Holds t) (inside : i < n.entries) : n.get i = .ok (t i) := by
  rw [get, if_pos inside, holds.len_eq inside]
  refine congrArg _ (ext_getElem? fun k => ?_)
  rw [getElem?_take]
  split <;> rename_i listed
  · rw [getElem?_drop]
    exact holds.entry i inside k listed
  · rw [getElem?_eq_none (not_lt.mp listed)]

/-- Rows do not overlap. -/
theorem rows_apart {i j : ℕ} (apart : j ≠ i) (stride : ℕ) :
    j * stride + stride ≤ i * stride ∨ i * stride + stride ≤ j * stride := by
  rcases lt_or_gt_of_ne apart with before | after
  · exact .inl (succ_mul j stride ▸ mul_le_mul_right _ before)
  · exact .inr (i.succ_mul stride ▸ mul_le_mul_right _ after)

/-- Every word after `put`. -/
theorem getElem?_put {skip : ℕ} {data : List (BitVec 32)} (inside : i < n.entries)
    (fits : skip + data.length ≤ n.maxLength) (a : ℕ) :
    (n.put i skip data inside fits).memory[a]? =
      if a = i * n.stride then some (BitVec.ofNat 32 (skip + data.length))
      else if i * n.stride + 1 + skip ≤ a ∧ a < i * n.stride + 1 + skip + data.length then
        data[a - (i * n.stride + 1 + skip)]?
      else n.memory[a]? := by
  have row := row_le inside
  have copied := length_overwrite (put_le inside fits)
  rw [put, getElem?_overwrite, getElem?_overwrite (put_le inside fits)]
  · rw [length_singleton]
    by_cases first : a = i * n.stride
    · rw [if_pos (by omega), if_pos first, first, Nat.sub_self]
      rfl
    · rw [if_neg (by omega), if_neg first]
  · rw [copied, length_singleton]
    unfold stride at row ⊢
    omega

/-- Words outside the part that is written stay. -/
theorem getElem?_put_of_ne {skip j k : ℕ} {data : List (BitVec 32)} (inside : i < n.entries)
    (fits : skip + data.length ≤ n.maxLength) (other : j ≠ i) (within : k ≤ n.maxLength) :
    (n.put i skip data inside fits).memory[j * n.stride + k]? = n.memory[j * n.stride + k]? := by
  have apart := rows_apart other n.stride
  have width : n.stride = n.maxLength + 1 := rfl
  rw [getElem?_put, if_neg (by omega), if_neg (by omega)]

theorem Holds.put {skip : ℕ} {data : List (BitVec 32)} (holds : n.Holds t) (inside : i < n.entries)
    (fits : skip + data.length ≤ n.maxLength) (kept : skip ≤ (t i).length) :
    (n.put i skip data inside fits).Holds (update t i ((t i).take skip ++ data)) := by
  have taken : ((t i).take skip).length = skip := by rw [length_take, min_eq_left kept]
  have length : ((t i).take skip ++ data).length = skip + data.length := by
    rw [length_append, taken]
  constructor
  · intro j within
    rw [update_apply]
    split
    · rw [length]
      exact fits
    · exact holds.short j within
  · intro j within
    change (n.put i skip data inside fits).memory[j * n.stride]? = _
    rw [update_apply]
    split <;> rename_i here
    · rw [here, getElem?_put, if_pos rfl, length]
    · have same := getElem?_put_of_ne inside fits here (n.maxLength.zero_le)
      rw [add_zero] at same
      rw [same]
      exact holds.length j within
  · intro j within k listed
    change (n.put i skip data inside fits).memory[j * n.stride + 1 + k]? = _
    rw [update_apply] at listed ⊢
    split at listed <;> rename_i here
    · subst here
      rw [if_pos rfl, getElem?_put, if_neg (by omega), getElem?_append, taken]
      by_cases old : k < skip
      · rw [if_neg (by omega), if_pos old, getElem?_take, if_pos old]
        exact holds.entry j within k (by omega)
      · have shift : j * n.stride + 1 + k - (j * n.stride + 1 + skip) = k - skip := by omega
        rw [if_pos (by omega), if_neg old, shift]
    · have short := holds.short j within
      have same := getElem?_put_of_ne (k := 1 + k) inside fits here (by omega)
      rw [if_neg here, add_assoc, same, ← add_assoc]
      exact holds.entry j within k listed

/-! ## One call -/

theorem size_new {entries maxLength : BitVec 32} (made : new entries maxLength = .ok n) :
    n.entries = entries.toNat ∧ n.maxLength = maxLength.toNat := by
  unfold new at made
  split at made
  · cases made
    exact ⟨rfl, rfl⟩
  · cases made

theorem holds_new {entries maxLength : BitVec 32} (made : new entries maxLength = .ok n) :
    n.Holds fun _ => [] := by
  unfold new at made
  split at made
  · cases made
    refine ⟨fun _ _ => zero_le _, fun i inside => ?_, fun _ _ _ => nofun⟩
    rw [getElem?_replicate, if_pos]
    · rfl
    · exact mul_lt_mul_of_pos_right inside (succ_pos _)
  · cases made

theorem entries_step (n : Neighbors) (op : Op) :
    (n.step op).2.entries = n.entries ∧ (n.step op).2.maxLength = n.maxLength := by
  cases op with
  | get i => exact ⟨rfl, rfl⟩
  | set i neighbors =>
    simp only [step, set]
    split
    · split <;> exact ⟨rfl, rfl⟩
    · exact ⟨rfl, rfl⟩
  | append i neighbors =>
    simp only [step, append]
    split
    · split <;> exact ⟨rfl, rfl⟩
    · exact ⟨rfl, rfl⟩

theorem Holds.step (holds : n.Holds t) (op : Op) :
    (n.step op).1 = (t.step n.entries n.maxLength op).1 ∧
      (n.step op).2.Holds (t.step n.entries n.maxLength op).2 := by
  cases op with
  | get i =>
    refine ⟨?_, holds⟩
    simp only [Neighbors.step, Table.step]
    split <;> rename_i inside
    · rw [holds.get_eq inside]
      rfl
    · rw [get, if_neg inside]
      rfl
  | set i neighbors =>
    simp only [Neighbors.step, Table.step, set]
    split <;> rename_i inside
    · split <;> rename_i short
      · apply And.intro rfl
        have copied := holds.put inside ((zero_add _).trans_le short) (zero_le _)
        rwa [take_zero] at copied
      · exact ⟨rfl, holds⟩
    · exact ⟨rfl, holds⟩
  | append i neighbors =>
    have range := n.maxLength_lt
    simp only [Neighbors.step, Table.step, append]
    split <;> rename_i inside
    · have same : saturatingAdd (n.len i) neighbors.length ≤ n.maxLength ↔
          (t i ++ neighbors).length ≤ n.maxLength := by
        rw [holds.len_eq inside, length_append, saturatingAdd]
        omega
      split <;> rename_i short
      · rw [if_pos (same.mp short)]
        apply And.intro rfl
        have listed := holds.len_eq inside
        rw [length_append, ← listed] at same
        have copied := holds.put inside (same.mp short) listed.le
        rwa [take_of_length_le listed.ge] at copied
      · rw [if_neg (mt same.mpr short), holds.len_eq inside]
        exact ⟨rfl, holds⟩
    · exact ⟨rfl, holds⟩

theorem step_of_error {op : Op} {e : AccessError} (failed : (n.step op).1 = .error e) :
    (n.step op).2 = n := by
  cases op with
  | get i => rfl
  | set i neighbors =>
    simp only [step, set] at failed ⊢
    split at failed
    · split at failed
      · cases failed
      · rename_i inside short
        rw [dif_pos inside, dif_neg short]
    · rename_i outside
      rw [dif_neg outside]
  | append i neighbors =>
    simp only [step, append] at failed ⊢
    split at failed
    · split at failed
      · cases failed
      · rename_i inside short
        rw [dif_pos inside, dif_neg short]
    · rename_i outside
      rw [dif_neg outside]

end Neighbors

theorem Table.step_of_ne {entries maxLength j : ℕ} (t : Table) {op : Op} (other : j ≠ op.slot) :
    (t.step entries maxLength op).2 j = t j := by
  cases op with
  | get i => rfl
  | set i neighbors =>
    simp only [step]
    split
    · split
      · exact update_of_ne other _ _
      · rfl
    · rfl
  | append i neighbors =>
    simp only [step]
    split
    · split
      · exact update_of_ne other _ _
      · rfl
    · rfl

/-! ## Every sequence of calls -/

def Neighbors.after (n : Neighbors) (ops : List Op) : Neighbors :=
  ops.foldl (fun n op => (n.step op).2) n

def Table.after (entries maxLength : ℕ) (t : Table) (ops : List Op) : Table :=
  ops.foldl (fun t op => (t.step entries maxLength op).2) t

namespace Neighbors

variable {n : Neighbors} {t : Table}

theorem Holds.get_step (holds : n.Holds t) {op : Op} {j : ℕ} (other : j ≠ op.slot) :
    (n.step op).2.get j = n.get j := by
  have same := (entries_step n op).1
  by_cases inside : j < n.entries
  · rw [holds.get_eq inside, (holds.step op).2.get_eq (same ▸ inside), t.step_of_ne other]
  · rw [get, get, same, if_neg inside, if_neg inside]

theorem Holds.after {entries maxLength : ℕ} (holds : n.Holds t) (sized : n.entries = entries)
    (capacity : n.maxLength = maxLength) (ops : List Op) :
    (n.after ops).Holds (t.after entries maxLength ops) ∧ (n.after ops).entries = entries ∧
      (n.after ops).maxLength = maxLength := by
  induction ops generalizing n t with
  | nil => exact ⟨holds, sized, capacity⟩
  | cons op ops ih =>
    obtain ⟨same, kept⟩ := entries_step n op
    have next := (holds.step op).2
    rw [sized, capacity] at next
    exact ih next (same.trans sized) (kept.trans capacity)

/-- After any calls on a new buffer, a call answers what it answers on the lists, changes nothing if
it fails, and leaves the other slots. -/
theorem after_answers {entries maxLength : BitVec 32} (made : new entries maxLength = .ok n)
    (ops : List Op) (op : Op) :
    ((n.after ops).step op).1 =
        ((Table.after entries.toNat maxLength.toNat (fun _ => []) ops).step
          entries.toNat maxLength.toNat op).1 ∧
      (∀ e, ((n.after ops).step op).1 = .error e → ((n.after ops).step op).2 = n.after ops) ∧
      ∀ j ≠ op.slot, ((n.after ops).step op).2.get j = (n.after ops).get j := by
  obtain ⟨sized, capacity⟩ := size_new made
  obtain ⟨holds, sized, capacity⟩ := (holds_new made).after sized capacity ops
  refine ⟨?_, fun _ => step_of_error, fun _ => holds.get_step⟩
  have answered := (holds.step op).1
  rwa [sized, capacity] at answered

theorem after_answers_full :
    ∃ n, new 2 2 = .ok n ∧ ((n.after [.set 0 [7], .append 0 [8], .append 0 [9]]).step (.get 0)).1 =
      .ok (some [7, 8]) := by
  obtain ⟨n, made⟩ : ∃ n, new 2 2 = .ok n := ⟨_, rfl⟩
  apply Exists.intro n
  apply And.intro made
  rw [(after_answers made _ _).1]
  decide

end Neighbors

end DiskAnn.Inmem
