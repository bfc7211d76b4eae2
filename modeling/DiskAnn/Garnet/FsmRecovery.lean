import DiskAnn.Garnet.FsmSafety

/-! # What recovery remembers

`load_state` counts the blocks that answer a probe and then reads them from the last one down. A read
that fails ends the loop as if no more blocks were there, and a failed probe ends the count. The ids in
blocks that were not read are forgotten.
-/

namespace DiskAnn.Garnet.Fsm

open Machine Protocol Function Finset Nat

variable {fails : ℕ → Bool} {blocks : ℕ → Option Block} {hi n clock blockId : ℕ} {l : Loaded}

/-! ## The scan of the blocks -/

/-- What has been gathered describes the ids from `lo` to `hi`. -/
structure Loaded.Of (blocks : ℕ → Option Block) (lo hi : ℕ) (l : Loaded) : Prop where
  total : l.totalUsed = ((Finset.Ico lo hi).filter (bitSet blocks ·)).card
  upper : ∀ id, lo ≤ id → id < hi → bitSet blocks id = true → (id : ℤ) ≤ l.lastUsedId
  reached : l.lastUsedId = -1 ∨ ∃ id : ℕ, l.lastUsedId = (id : ℤ) ∧ lo ≤ id ∧ id < hi ∧
    bitSet blocks id = true
  listed : ∀ id ∈ l.fastFreeList, bitSet blocks id = false ∧ (id : ℤ) < l.lastUsedId

theorem Loaded.Of.nothing (blocks : ℕ → Option Block) (hi id : ℕ) :
    Loaded.Of blocks hi hi ⟨-1, 0, [], id⟩ where
  total := by simp
  upper := fun id above below => by omega
  reached := .inl rfl
  listed := fun id mem => by cases mem

section Step

variable {lo hi : ℕ} {l : Loaded}

/-- The id that comes next is in use. -/
theorem Loaded.Of.used (of : l.Of blocks (lo + 1) hi) (inside : lo < hi)
    (set : bitSet blocks lo = true) {id : ℕ} :
    Loaded.Of blocks lo hi
      { l with lastUsedId := max l.lastUsedId lo, totalUsed := l.totalUsed + 1, id } where
  total := by
    have insert : (Ico lo hi).filter (bitSet blocks ·) =
        Insert.insert lo ((Ico (lo + 1) hi).filter (bitSet blocks ·)) := by
      rw [← insert_Ico_succ_left_eq_Ico inside, filter_insert, if_pos set]
      rfl
    rw [insert, card_insert_of_notMem (by simp), ← of.total]
  upper := fun other above below used => by
    rcases eq_or_lt_of_le above with rfl | above
    · exact le_max_right _ _
    · exact (of.upper other above below used).trans (le_max_left _ _)
  reached := by
    refine .inr ?_
    rcases of.reached with nothing | ⟨last, same, above, below, used⟩
    · exact ⟨lo, by simp only [nothing]; omega, le_rfl, inside, set⟩
    · exact ⟨last, by simp only [same]; omega, by omega, below, used⟩
  listed := fun other mem =>
    ⟨(of.listed other mem).1, (of.listed other mem).2.trans_le (le_max_left _ _)⟩

/-- The id that comes next is free, and perhaps listed. -/
theorem Loaded.Of.free (of : l.Of blocks (lo + 1) hi) (clear : bitSet blocks lo = false)
    {fastFreeList : List ℕ} {id : ℕ}
    (listed : fastFreeList = l.fastFreeList ∨
      fastFreeList = l.fastFreeList ++ [lo] ∧ (lo : ℤ) < l.lastUsedId) :
    Loaded.Of blocks lo hi { l with fastFreeList, id } where
  total := by
    rw [of.total]
    congr 1
    ext other
    simp only [mem_filter, mem_Ico]
    constructor
    · rintro ⟨⟨above, below⟩, used⟩
      exact ⟨⟨by omega, below⟩, used⟩
    · rintro ⟨⟨above, below⟩, used⟩
      rcases eq_or_lt_of_le above with rfl | above
      · cases clear.symm.trans used
      · exact ⟨⟨above, below⟩, used⟩
  upper := fun other above below used => by
    rcases eq_or_lt_of_le above with rfl | above
    · cases clear.symm.trans used
    · exact of.upper other above below used
  reached := of.reached.imp_right fun ⟨last, same, above, below, used⟩ =>
    ⟨last, same, by omega, below, used⟩
  listed := fun other mem => by
    rcases listed with rfl | ⟨rfl, before⟩
    · exact of.listed other mem
    · rcases List.mem_append.mp mem with old | new
      · exact of.listed other old
      · rw [List.mem_singleton.mp new]
        exact ⟨clear, before⟩

end Step

theorem loadBits_of {lo : ℕ} {byte : BitVec 8} (inside : lo + n ≤ hi) (of : l.Of blocks (lo + n) hi)
    (at_id : l.id = lo + n - 1) (bits : ∀ k < n, bitUsed byte k = bitSet blocks (lo + k)) :
    (loadBits byte n l).Of blocks lo hi ∧ (loadBits byte n l).id = lo - 1 := by
  induction n generalizing l with
  | zero => exact ⟨of, at_id⟩
  | succ n ih =>
    have bit := bits n (n.lt_succ_self)
    have here : l.id = lo + n := by omega
    unfold loadBits
    split_ifs with used room
    · refine ih (by omega) ?_ (by simp only; omega) fun k below => bits k (by omega)
      rw [here]
      exact of.used (show lo + n < hi by omega) (bit ▸ used)
    · refine ih (by omega) ?_ (by simp only; omega) fun k below => bits k (by omega)
      rw [here] at room ⊢
      exact of.free (by simpa [bit] using used) (.inr ⟨rfl, room.1⟩)
    · refine ih (by omega) ?_ (by simp only; omega) fun k below => bits k (by omega)
      exact of.free (by simpa [bit] using used) (.inl rfl)

theorem loadBytes_of {lo : ℕ} {block : Block} (inside : lo + n * 8 ≤ hi)
    (of : l.Of blocks (lo + n * 8) hi) (at_id : l.id = lo + n * 8 - 1)
    (bits : ∀ k < n * 8, bitUsed (block (k / 8)) (k % 8) = bitSet blocks (lo + k)) :
    (loadBytes block n l).Of blocks lo hi ∧ (loadBytes block n l).id = lo - 1 := by
  induction n generalizing l with
  | zero =>
    rw [loadBytes]
    exact ⟨by simpa using of, by simpa using at_id⟩
  | succ n ih =>
    have next : lo + n * 8 + 8 = lo + (n + 1) * 8 := by omega
    have byte (k : ℕ) (below : k < 8) : bitUsed (block n) k = bitSet blocks (lo + n * 8 + k) := by
      have bit := bits (n * 8 + k) (by omega)
      rwa [show (n * 8 + k) / 8 = n by omega, show (n * 8 + k) % 8 = k by omega,
        ← add_assoc] at bit
    obtain ⟨of', at_id'⟩ := loadBits_of (by omega) (next ▸ of) (next ▸ at_id) byte
    exact ih (by omega) of' at_id' fun k below => bits k (by omega)

/-- The loop over the blocks reads down to some block `m`, where a read failed or none is left. -/
theorem loadBlocks_of (fails : ℕ → Bool) (clock : ℕ) (inside : n * blockSizeIds ≤ hi)
    (of : l.Of blocks (n * blockSizeIds) hi) :
    ∃ m ≤ n, (loadBlocks fails blocks n clock l).2.Of blocks (m * blockSizeIds) hi ∧
      (∀ k, m ≤ k → k < n → fails (clock + (n - 1 - k)) = false) ∧
      (m = 0 ∨ fails (clock + (n - m)) = true ∨ blocks (m - 1) = none) := by
  induction n generalizing clock l with
  | zero => exact ⟨0, le_rfl, of, fun k _ below => by omega, .inl rfl⟩
  | succ n ih =>
    have size : blockSizeBytes * 8 = blockSizeIds := by decide
    have next : n * blockSizeIds + blockSizeIds = (n + 1) * blockSizeIds := (succ_mul _ _).symm
    unfold loadBlocks
    cases read : if fails clock then none else blocks n with
    | none =>
      refine ⟨n + 1, le_rfl, of, fun k _ below => by omega, .inr ?_⟩
      rw [Nat.sub_self]
      cases failed : fails clock with
      | true => exact .inl rfl
      | false => exact .inr (by simpa [failed] using read)
    | some block =>
      obtain ⟨answered, stored⟩ : fails clock = false ∧ blocks n = some block := by
        cases failed : fails clock <;> simp [failed] at read
        exact ⟨rfl, read⟩
      have bits (k : ℕ) (below : k < blockSizeBytes * 8) :
          bitUsed (block (k / 8)) (k % 8) = bitSet blocks (n * blockSizeIds + k) :=
        bitSet_of_block stored (size ▸ below)
      have start : Loaded.Of blocks (n * blockSizeIds + blockSizeBytes * 8) hi
          { l with id := n * blockSizeIds + blockSizeIds - 1 } := by
        rw [size, next]
        exact { of with }
      obtain ⟨of', _⟩ := loadBytes_of (by rw [size, next]; exact inside) start (by rw [size]) bits
      obtain ⟨m, bound, whole, reads, ends⟩ := ih (clock + 1) (by omega) of'
      refine ⟨m, by omega, whole, fun k above below => ?_, ?_⟩
      · rcases eq_or_lt_of_le (le_of_lt_succ below) with rfl | older
        · rw [show clock + (k + 1 - 1 - k) = clock by omega]
          exact answered
        · rw [show clock + (n + 1 - 1 - k) = clock + 1 + (n - 1 - k) by omega]
          exact reads k above older
      · rwa [show clock + (n + 1 - m) = clock + 1 + (n - m) by omega]

/-- From `blockId` on `n` blocks answer the probes that start at `clock`, and the next does not. -/
structure Probed (fails : ℕ → Bool) (blocks : ℕ → Option Block) (clock blockId n : ℕ) : Prop where
  answered : ∀ k < n, fails (clock + k) = false ∧ (blocks (blockId + k)).isSome = true
  refused : fails (clock + n) = true ∨ blocks (blockId + n) = none

theorem Probed.zero (refused : ¬ (!fails clock && (blocks blockId).isSome) = true) :
    Probed fails blocks clock blockId 0 where
  answered := fun k below => absurd below (k.not_lt_zero)
  refused := by
    cases failed : fails clock with
    | true => exact .inl rfl
    | false => exact .inr (by simpa [failed] using refused)

theorem Probed.succ (here : (!fails clock && (blocks blockId).isSome) = true)
    (rest : Probed fails blocks (clock + 1) (blockId + 1) n) :
    Probed fails blocks clock blockId (n + 1) where
  answered := by
    intro k below
    cases k with
    | zero => simpa using here
    | succ k =>
      rw [k.add_comm 1, ← add_assoc, ← add_assoc]
      exact rest.answered k (by omega)
  refused := by
    rw [n.add_comm 1, ← add_assoc, ← add_assoc]
    exact rest.refused

/-- The count stops at the first block that does not answer. -/
theorem countBlocks_spec (fails : ℕ → Bool) (left clock blockId : ℕ)
    (limit : ∀ k, blockId + left ≤ k → blocks k = none) :
    ∃ n, countBlocks fails blocks (left + 1) clock blockId = (clock + n + 1, blockId + n) ∧
      Probed fails blocks clock blockId n := by
  induction left generalizing clock blockId with
  | zero =>
    have absent : ¬ (!fails clock && (blocks blockId).isSome) = true := by
      simp [limit blockId le_rfl]
    rw [countBlocks, if_neg absent]
    exact ⟨0, rfl, .zero absent⟩
  | succ left ih =>
    rw [countBlocks]
    split_ifs with answered
    · obtain ⟨n, count, probed⟩ := ih (clock + 1) (blockId + 1) fun k bound => limit k (by omega)
      refine ⟨n + 1, ?_, probed.succ answered⟩
      rw [count, clock.add_right_comm 1 n, blockId.add_right_comm 1 n]
      rfl
    · exact ⟨0, rfl, .zero answered⟩

/-! ## Construction -/

/-- What `new` builds from blocks that ids of type `u32` have room for: the first probe answers, `n`
blocks are counted and those from `m` on are read; or the first block is made anew. -/
theorem new_cases {τ : Type} {s : State τ} {quantizationEnabled reuseEnabled : Bool}
    (small : ∀ k, blockLimit ≤ k → blocks k = none)
    (opened : new τ fails blocks quantizationEnabled reuseEnabled = .ok s) :
    (∃ n m clock loaded, fails 0 = false ∧ Probed fails blocks 1 0 n ∧ m ≤ n ∧
      loaded.Of blocks (m * blockSizeIds) (n * blockSizeIds) ∧
      (∀ k, m ≤ k → k < n → fails (n + 2 + (n - 1 - k)) = false) ∧
      (m = 0 ∨ fails (n + 2 + (n - m)) = true) ∧
      s = .over τ blocks clock loaded ((n + u32Max) % 2 ^ 32) quantizationEnabled reuseEnabled) ∨
    (fails 0 = true ∨ blocks 0 = none) ∧
      s = .over τ (update blocks 0 (some Block.zero)) 2 ⟨-1, 0, [], 0⟩ 0
        quantizationEnabled reuseEnabled := by
  rw [new] at opened
  split_ifs at opened with answered failed
  · obtain ⟨first, stored⟩ : fails 0 = false ∧ (blocks 0).isSome = true := by simpa using answered
    obtain ⟨n, count, probed⟩ := countBlocks_spec fails blockLimit 1 0 fun k bound =>
      small k (by omega)
    obtain ⟨m, bound, of, reads, ends⟩ := loadBlocks_of fails (1 + n + 1) le_rfl
      (Loaded.Of.nothing blocks (n * blockSizeIds) 0)
    rw [zero_add] at count
    have start : 1 + n + 1 = n + 2 := by omega
    simp only [count, Except.ok.injEq] at opened
    rw [start] at reads ends
    refine .inl ⟨n, m, _, _, first, probed, bound, of, reads, ?_, opened.symm⟩
    rcases ends with done | failed | absent
    · exact .inl done
    · exact .inr failed
    · refine .inl ?_
      by_contra some_left
      have exists_block := (probed.answered (m - 1) (by omega)).2
      rw [zero_add, absent] at exists_block
      cases exists_block
  · refine .inr ⟨?_, (Except.ok.inj opened).symm⟩
    cases refused : fails 0 with
    | true => exact .inl rfl
    | false => exact .inr (by simpa [refused] using answered)

theorem Probed.unique {n' : ℕ} (probed : Probed fails blocks clock blockId n)
    (probed' : Probed fails blocks clock blockId n') : n = n' := by
  have le {n n' : ℕ} (probed : Probed fails blocks clock blockId n)
      (probed' : Probed fails blocks clock blockId n') : n' ≤ n := by
    by_contra more
    obtain ⟨answered, stored⟩ := probed'.answered n (by omega)
    rcases probed.refused with failed | absent
    · cases answered.symm.trans failed
    · rw [absent] at stored
      cases stored
  exact le_antisymm (le probed' probed) (le probed probed')

/-! ## Runs of a recovered map -/

section Runs

variable {τ : Type} [DecidableEq τ] {s s' : State τ} {task : τ}

theorem returned_le_of_exec {o : Op} {r : o.Res} (step : exec fails task o s = some (s', r))
    (id : ℕ) : s.returned id ≤ s'.returned id := by
  cases o with
  | returns event =>
    cases step
    rcases event with (_ | other) | _
    · exact le_rfl
    · change s.returned id ≤ update s.returned other (s.returned other + 1) id
      rcases eq_or_ne id other with rfl | ne
      · rw [update_self]
        exact le_succ _
      · rw [update_of_ne ne]
    · exact le_rfl
  | rmw other used =>
    simp only [exec] at step
    split_ifs at step
    · cases step
      exact le_rfl
    · cases step
      unfold State.rmw State.noteChange
      dsimp only
      split_ifs <;> exact le_rfl
  | push other | writeBlock blockId =>
    simp only [exec] at step
    split_ifs at step
    all_goals
      cases step
      exact le_rfl
  | readMinter | lockMinter | lockRefill | enableQuantization =>
    simp only [exec] at step
    split_ifs at step
    cases step
    exact le_rfl
  | _ =>
    cases step
    exact le_rfl

theorem returned_le_of_reachable {start c : Config interface Panic τ (State τ)}
    (reachable : Config.Reachable (exec fails) start c) (id : ℕ) :
    start.shared.returned id ≤ c.shared.returned id := by
  refine reachable.invariant (fun c => start.shared.returned id ≤ c.shared.returned id) le_rfl ?_
  intro c c' task bound step
  obtain ⟨o, next, s', r, _, out, rfl⟩ | ⟨_, _, _, _, _, _, rfl⟩ := Config.step_cases step
  · exact bound.trans (returned_le_of_exec out id)
  · exact bound

end Runs

/-! ## What is remembered -/

/-- Every id in use lies in a block that was counted and read, and is not the last `u32`; `n` blocks
answer their probes, and block `k` is read by callback `n + 2 + (n - 1 - k)`. -/
structure Recoverable (fails : ℕ → Bool) (blocks : ℕ → Option Block) (n : ℕ) : Prop where
  first : fails 0 = false
  probed : Probed fails blocks 1 0 n
  read : ∀ id, bitSet blocks id = true → id ≠ u32Max ∧ id / blockSizeIds < n ∧
    ∀ k, id / blockSizeIds ≤ k → k < n → fails (n + 2 + (n - 1 - k)) = false

/-- A map over persisted blocks accounts for every id in use, and hands none of them out before it is
freed. -/
structure State.Remembers {τ : Type} [DecidableEq τ] (s : State τ) (blocks : ℕ → Option Block) :
    Prop where
  total : s.totalUsed.toNat = {id | bitSet blocks id = true}.ncard
  above : ∀ id, bitSet blocks id = true → id < s.idMinter.nextId
  largest : s.idMinter.nextId ≠ 0 → bitSet blocks (s.idMinter.nextId - 1) = true
  listed : ∀ id ∈ s.fastFreeList, bitSet blocks id = false ∧ id < s.idMinter.nextId
  kept : ∀ (fails : ℕ → Bool) (requests : τ → List Request)
    (c : Config interface Panic τ (State τ)),
    Config.Reachable (exec fails) (start s requests) c → ∀ task id next, bitSet blocks id = true →
      c.code task = .call (.returns (.nextId (.ok id))) next → 0 < c.shared.freed id

section Remembers

variable {τ : Type} {s : State τ} {lo hi n m clock maxBlock : ℕ} {loaded : Loaded}
  {quantizationEnabled reuseEnabled : Bool} {id : ℕ} (small : ∀ k, blockLimit ≤ k → blocks k = none)
include small

theorem bitSet_lt (set : bitSet blocks id = true) :
    id < 2 ^ 32 := by
  by_contra large
  exact bitSet_stored set (small (id / blockSizeIds)
    ((Nat.le_div_iff_mul_le (by decide)).mpr (Nat.le_of_not_lt large)))

omit small

theorem Probed.le_blockLimit (probed : Probed fails blocks 1 0 n)
    (small : ∀ k, blockLimit ≤ k → blocks k = none) : n ≤ blockLimit := by
  by_contra more
  have stored := (probed.answered blockLimit (by omega)).2
  rw [small (0 + blockLimit) (by omega)] at stored
  cases stored

/-- The ids in use that lie in a range that holds all of them. -/
theorem ncard_bitSet (inside : ∀ id, bitSet blocks id = true → lo ≤ id ∧ id < hi) :
    {id | bitSet blocks id = true}.ncard = ((Ico lo hi).filter (bitSet blocks ·)).card := by
  rw [← Set.ncard_coe_finset]
  congr 1
  ext id
  simp only [coe_filter, mem_Ico]
  exact ⟨fun set => ⟨inside id set, set⟩, fun set => set.2⟩

variable (of : loaded.Of blocks lo hi)
include of

theorem Loaded.Of.totalUsed_le : loaded.totalUsed ≤ hi := by
  rw [of.total]
  refine (card_filter_le _ _).trans ?_
  rw [card_Ico]
  exact sub_le _ _

theorem Loaded.Of.totalUsed_toNat (small : hi ≤ 2 ^ 32) :
    (loaded.totalUsed : BitVec 64).toNat = loaded.totalUsed := by
  have bound := of.totalUsed_le
  rw [BitVec.natCast_eq_ofNat, BitVec.toNat_ofNat, mod_eq_of_lt (by omega)]

/-- What a scan of all ids in use says about the largest of them. -/
theorem Loaded.Of.lastUsedId_lt
    (small : ∀ id, bitSet blocks id = true → id < u32Max) : loaded.lastUsedId < u32Max := by
  rcases of.reached with nothing | ⟨id, same, _, _, set⟩
  · rw [nothing]
    decide
  · rw [same]
    exact_mod_cast small id set

theorem Loaded.Of.accurate (inside : ∀ id, bitSet blocks id = true → lo ≤ id ∧ id < hi)
    (small : ∀ id, bitSet blocks id = true → id < u32Max) (end_eq : hi = (maxBlock + 1) * blockSizeIds)
    (mapped : maxBlock < u32Max) (stored : ∀ k ≤ maxBlock, (blocks k).isSome = true) :
    loaded.Accurate blocks maxBlock := by
  have last := of.lastUsedId_lt small
  have counter : (loaded.lastUsedId + 1).toNat % 2 ^ 32 = (loaded.lastUsedId + 1).toNat := by
    rw [u32Max] at last
    omega
  have below_end : loaded.lastUsedId < hi := by
    rcases of.reached with nothing | ⟨id, same, _, below, _⟩ <;> omega
  have covered {id : ℕ} (bound : (id : ℤ) ≤ loaded.lastUsedId) :
      id < (loaded.lastUsedId + 1).toNat % 2 ^ 32 ∧ id / blockSizeIds ≤ maxBlock := by
    refine ⟨by omega, le_of_lt_succ ((div_lt_iff_lt_mul (by decide)).mpr ?_)⟩
    rw [← end_eq]
    omega
  exact {
    used_lt := fun id set => covered (of.upper id (inside id set).1 (inside id set).2 set)
    total := by
      rw [of.total]
      congr 1
      ext id
      simp only [mem_filter, mem_Ico, mem_range]
      constructor
      · rintro ⟨⟨above, below⟩, set⟩
        have bound := of.upper id above below set
        exact ⟨by omega, set⟩
      · rintro ⟨_, set⟩
        exact ⟨inside id set, set⟩
    listed := fun id mem => covered (of.listed id mem).2.le
    maxBlock_lt := mapped
    stored
    room := by
      omega }

include small

/-- If the number of ids in use was found, all of them were. -/
theorem Loaded.Of.inside_of_total (total : loaded.totalUsed = {id | bitSet blocks id = true}.ncard)
    (set : bitSet blocks id = true) : lo ≤ id ∧ id < hi := by
  have range (id : ℕ) (set : bitSet blocks id = true) : 0 ≤ id ∧ id < 2 ^ 32 :=
    ⟨zero_le id, bitSet_lt small set⟩
  rw [of.total, ncard_bitSet range] at total
  have subset : (Ico lo hi).filter (bitSet blocks ·) ⊆
      (Ico 0 (2 ^ 32)).filter (bitSet blocks ·) := by
    intro id mem
    have set := (mem_filter.mp mem).2
    exact mem_filter.mpr ⟨mem_Ico.mpr (range id set), set⟩
  have same := eq_of_subset_of_card_le subset total.ge
  have mem : id ∈ (Ico 0 (2 ^ 32)).filter (bitSet blocks ·) :=
    mem_filter.mpr ⟨mem_Ico.mpr (range id set), set⟩
  rw [← same] at mem
  exact mem_Ico.mp (mem_filter.mp mem).1

variable [DecidableEq τ]

omit small

omit of in
/-- There is nothing to remember. -/
theorem remembers_of_unused (unused : ∀ id, bitSet blocks id = false) (total : s.totalUsed = 0)
    (counter : s.idMinter.nextId = 0) (empty : s.fastFreeList = []) : s.Remembers blocks where
  total := by simp [total, unused]
  above := fun id set => by cases (unused id).symm.trans set
  largest := fun moved => absurd counter moved
  listed := fun id mem => by
    rw [empty] at mem
    cases mem
  kept := fun _ _ _ _ _ id _ set _ => by cases (unused id).symm.trans set

theorem remembers_of_accurate (inside : ∀ id, bitSet blocks id = true → lo ≤ id ∧ id < hi)
    (small : ∀ id, bitSet blocks id = true → id < u32Max) (hi_le : hi ≤ 2 ^ 32)
    (accurate : loaded.Accurate blocks maxBlock) :
    (State.over τ blocks clock loaded maxBlock quantizationEnabled reuseEnabled).Remembers blocks := by
  have last := of.lastUsedId_lt small
  have counter : (loaded.lastUsedId + 1).toNat % 2 ^ 32 = (loaded.lastUsedId + 1).toNat := by
    rw [u32Max] at last
    omega
  constructor
  · change (loaded.totalUsed : BitVec 64).toNat = _
    rw [of.totalUsed_toNat hi_le, of.total, ncard_bitSet inside]
  · exact fun id set => (accurate.used_lt id set).1
  · intro moved
    change bitSet blocks ((loaded.lastUsedId + 1).toNat % 2 ^ 32 - 1) = true
    change (loaded.lastUsedId + 1).toNat % 2 ^ 32 ≠ 0 at moved
    rw [counter] at moved ⊢
    rcases of.reached with nothing | ⟨id, same, _, _, set⟩
    · rw [nothing] at moved
      exact absurd rfl moved
    · rwa [same]
  · exact fun id mem => ⟨(of.listed id mem).1, (accurate.listed id mem).1⟩
  · intro fails requests c reachable task id next set returns
    have sound : (State.over τ blocks clock loaded maxBlock quantizationEnabled reuseEnabled).Sound
      False := accurate.sound clock quantizationEnabled reuseEnabled
    obtain ⟨tokens, explains⟩ := explained nofun sound (State.over_atRest _ _ _ _ _ _) reachable
    have before := returned_le_of_reachable reachable id
    have freed := explains.1.returned_le (explains.pre returns)
    have once : (start (State.over τ blocks clock loaded maxBlock quantizationEnabled reuseEnabled)
        requests).shared.returned id = 1 := if_pos set
    omega

omit of

variable (recoverable : Recoverable fails blocks n)
include recoverable

theorem Recoverable.inside (bound : m ≤ n)
    (ends : m = 0 ∨ fails (n + 2 + (n - m)) = true) (set : bitSet blocks id = true) :
    m * blockSizeIds ≤ id ∧ id < n * blockSizeIds := by
  obtain ⟨_, counted, read⟩ := recoverable.read id set
  refine ⟨?_, (div_lt_iff_lt_mul (by decide)).mp counted⟩
  refine (le_div_iff_mul_le (by decide)).mp ?_
  generalize id / blockSizeIds = block at read ⊢
  by_contra unread
  rcases ends with none_left | failed
  · omega
  · have answered := read (m - 1) (by omega) (by omega)
    rw [show n - 1 - (m - 1) = n - m by omega, failed] at answered
    cases answered

include small

theorem Recoverable.below (set : bitSet blocks id = true) :
    id < u32Max := by
  have range := bitSet_lt small set
  have last := (recoverable.read id set).1
  rw [u32Max] at last ⊢
  omega

theorem Recoverable.accurate (some_block : 0 < n)
    (bound : m ≤ n) (of : loaded.Of blocks (m * blockSizeIds) (n * blockSizeIds))
    (ends : m = 0 ∨ fails (n + 2 + (n - m)) = true) :
    loaded.Accurate blocks ((n + u32Max) % 2 ^ 32) := by
  have limit : n ≤ 2 ^ 16 := recoverable.probed.le_blockLimit small
  have maxBlock : (n + u32Max) % 2 ^ 32 = n - 1 := by
    rw [u32Max]
    omega
  rw [maxBlock]
  refine of.accurate (fun id set => recoverable.inside bound ends set)
    (fun id set => recoverable.below small set) ?_ ?_ fun k bound => ?_
  · rw [Nat.sub_add_cancel some_block]
  · omega
  · have stored := (recoverable.probed.answered k (by omega)).2
    rwa [zero_add] at stored

/-- Where every id in use was read, the map remembers them. -/
theorem Recoverable.remembers {used : ℕ} (set : bitSet blocks used = true)
    (bound : m ≤ n) (of : loaded.Of blocks (m * blockSizeIds) (n * blockSizeIds))
    (ends : m = 0 ∨ fails (n + 2 + (n - m)) = true) :
    (State.over τ blocks clock loaded ((n + u32Max) % 2 ^ 32) quantizationEnabled
      reuseEnabled).Remembers blocks := by
  have some_block : 0 < n := (zero_le _).trans_lt (recoverable.read used set).2.1
  have size : n * blockSizeIds ≤ 2 ^ 32 :=
    mul_le_mul_right blockSizeIds (recoverable.probed.le_blockLimit small)
  exact remembers_of_accurate of (fun id set => recoverable.inside bound ends set)
    (fun id set => recoverable.below small set) size (recoverable.accurate small some_block bound of ends)

/-- A map over a store that holds nothing, or over blocks that were counted and read. -/
inductive Opened (fails : ℕ → Bool) (s : State τ) : Prop
  | empty (quantizationEnabled reuseEnabled : Bool)
      (opened : new τ fails (fun _ => none) quantizationEnabled reuseEnabled = .ok s)
  | recovered (blocks : ℕ → Option Block) (n : ℕ) (quantizationEnabled reuseEnabled : Bool)
      (small : ∀ k, blockLimit ≤ k → blocks k = none) (recoverable : Recoverable fails blocks n)
      (some_block : 0 < n)
      (opened : new τ fails blocks quantizationEnabled reuseEnabled = .ok s)

omit recoverable small

omit [DecidableEq τ] in
theorem Opened.sound (reliable : Prop) (opened : Opened fails s) : s.Sound reliable ∧ s.AtRest := by
  cases opened with
  | empty quantizationEnabled reuseEnabled opened => exact new_empty reliable opened
  | recovered blocks n quantizationEnabled reuseEnabled small recoverable some_block opened =>
    rcases new_cases small opened with
      ⟨n', m, clock, loaded, _, probed, bound, of, _, ends, rfl⟩ | ⟨refused, rfl⟩
    · obtain rfl := recoverable.probed.unique probed
      exact ⟨(recoverable.accurate small some_block bound of ends).sound clock _ _,
        State.over_atRest _ _ _ _ _ _⟩
    · have stored := (recoverable.probed.answered 0 some_block).2
      rcases refused with failed | absent
      · cases recoverable.first.symm.trans failed
      · rw [absent] at stored
        cases stored

/-- A construction that succeeds remembers the ids in use exactly if there are none, or every one of
them lies in a block that was counted and read. -/
theorem recovery_remembers_iff (small : ∀ k, blockLimit ≤ k → blocks k = none)
    (opened : new τ fails blocks quantizationEnabled reuseEnabled = .ok s) :
    s.Remembers blocks ↔ (∀ id, bitSet blocks id = false) ∨ ∃ n, Recoverable fails blocks n := by
  have cases_of_new := new_cases small opened
  by_cases unused : ∀ id, bitSet blocks id = false
  · refine ⟨fun _ => .inl unused, fun _ => ?_⟩
    rcases cases_of_new with ⟨n, m, clock, loaded, _, _, _, of, _, _, rfl⟩ | ⟨_, rfl⟩
    · have last : loaded.lastUsedId = -1 := by
        rcases of.reached with nothing | ⟨id, _, _, _, set⟩
        · exact nothing
        · cases (unused id).symm.trans set
      refine remembers_of_unused unused ?_ ?_ ?_
      · change (loaded.totalUsed : BitVec 64) = 0
        rw [of.total]
        simp [unused]
      · change (loaded.lastUsedId + 1).toNat % 2 ^ 32 = 0
        rw [last]
        rfl
      · refine List.eq_nil_iff_forall_not_mem.mpr fun id member => ?_
        have bound := (of.listed id member).2
        omega
    · exact remembers_of_unused unused rfl rfl rfl
  · obtain ⟨used, set⟩ := not_forall.mp unused
    rw [Bool.not_eq_false] at set
    constructor
    · intro remembers
      right
      rcases cases_of_new with ⟨n, m, clock, loaded, first, probed, bound, of, reads, _, rfl⟩ | ⟨_, rfl⟩
      · have size : n * blockSizeIds ≤ 2 ^ 32 :=
          Nat.mul_le_mul_right blockSizeIds (probed.le_blockLimit small)
        have total := of.totalUsed_toNat size ▸ remembers.total
        refine ⟨n, first, probed, fun id set => ?_⟩
        obtain ⟨above, below⟩ := of.inside_of_total small total set
        have block : m ≤ id / blockSizeIds := (Nat.le_div_iff_mul_le (by decide)).mpr above
        refine ⟨?_, (Nat.div_lt_iff_lt_mul (by decide)).mpr below, fun k from_block =>
          reads k (block.trans from_block)⟩
        rintro rfl
        -- the counter has wrapped around to zero
        have last : loaded.lastUsedId = u32Max := by
          refine le_antisymm ?_ (of.upper _ above below set)
          rcases of.reached with nothing | ⟨id, same, _, _, set⟩
          · rw [nothing]
            decide
          · have range := bitSet_lt small set
            rw [u32Max]
            omega
        have counter : u32Max < (loaded.lastUsedId + 1).toNat % 2 ^ 32 := remembers.above _ set
        rw [last] at counter
        exact absurd counter (by decide)
      · exact absurd (remembers.above used set) (Nat.not_lt_zero used)
    · rintro (none_used | ⟨n, recoverable⟩)
      · exact absurd none_used unused
      rcases cases_of_new with ⟨n', m, clock, loaded, _, probed, bound, of, _, ends, rfl⟩ | ⟨refused, rfl⟩
      · obtain rfl := recoverable.probed.unique probed
        exact recoverable.remembers small set bound of ends
      · have stored := (recoverable.probed.answered 0
          ((Nat.zero_le _).trans_lt (recoverable.read used set).2.1)).2
        rcases refused with failed | absent
        · cases recoverable.first.symm.trans failed
        · rw [absent] at stored
          cases stored

end Remembers

/-- One block, in which id 0 is in use. -/
def oneUsed : ℕ → Option Block :=
  update (fun _ => none) 0 (some fun byteIdx => if byteIdx = 0 then 0x80 else 0)

theorem recovery_remembers_one :
    ∃ s : State Unit, new Unit (fun _ => false) oneUsed false true = .ok s ∧
      bitSet oneUsed 0 = true ∧ s.Remembers oneUsed := by
  have first {id : ℕ} (set : bitSet oneUsed id = true) : id / blockSizeIds = 0 := by
    by_contra other
    exact bitSet_stored set (update_of_ne other _ _)
  have small (k : ℕ) (large : blockLimit ≤ k) : oneUsed k = none := by
    refine update_of_ne ?_ _ _
    rintro rfl
    exact absurd large (by decide)
  have probed : Probed (fun _ => false) oneUsed 1 0 1 := by
    refine ⟨fun k below => ?_, .inr rfl⟩
    obtain rfl := Nat.lt_one_iff.mp below
    exact ⟨rfl, rfl⟩
  have recoverable : Recoverable (fun _ => false) oneUsed 1 := by
    refine ⟨rfl, probed, fun id set => ⟨?_, by rw [first set]; exact Nat.one_pos, fun _ _ _ => rfl⟩⟩
    rintro rfl
    exact absurd (first set) (by decide)
  exact ⟨_, rfl, rfl, (recovery_remembers_iff small rfl).mpr (.inr ⟨1, recoverable⟩)⟩

/-- The read of the only block fails: the map counts nothing and hands out id 0, which is in use and
was not freed. -/
theorem recovery_forgets_unread_block :
    ∃ (s : State Unit) (c : Config interface Panic Unit (State Unit)) (next : Unit → Code Unit),
      new Unit (· == 3) oneUsed false true = .ok s ∧ bitSet oneUsed 0 = true ∧ s.totalUsed = 0 ∧
      s.idMinter.nextId = 0 ∧
      Config.Reachable (exec fun _ => false) (start s fun _ => [.nextId]) c ∧
      c.code () = .call (.returns (.nextId (.ok 0))) next ∧ c.shared.freed 0 = 0 := by
  have reachable := Config.Reachable.of_run (exec fun _ => false)
    (start (State.over Unit oneUsed 4 ⟨-1, 0, [], 0⟩ 0 false true) fun _ => [.nextId])
    (List.replicate 7 ()) rfl
  exact ⟨_, _, _, rfl, rfl, rfl, rfl, reachable, rfl, rfl⟩

end DiskAnn.Garnet.Fsm
