import DiskAnn.Data.Bytes
import DiskAnn.Garnet.IdMaps
import DiskAnn.Num.F32

/-! # Random members

`random_members` samples internal ids in growing batches and pushes the external ids of those that have
one. Whatever the sampler draws, it ends and pushes as many as there are or were asked for. They are
distinct and live as long as every internal id with an external one is in use, and is the one that its
external id leads to.

External ids are byte strings here. Every read of the map of external ids succeeds.
-/

namespace DiskAnn.Garnet

open List Function Nat

/-! ## The output buffer -/

inductive BufferState
  | available
  | full
  deriving DecidableEq, Repr

/-- `SearchResults` -/
structure SearchResults where
  ids : List UInt8
  dists : List F32
  index : ℕ
  idIndex : ℕ
  /-- History: the ids that were pushed. -/
  pushed : List (List UInt8)

namespace SearchResults

variable {out : SearchResults} {id : List UInt8} {members : List (List UInt8)}

/-- `push` -/
def push (out : SearchResults) (id : List UInt8) (distance : F32) : SearchResults × BufferState :=
  if out.dists.length ≤ out.index ∨ out.ids.length < out.idIndex + 4 + id.length then (out, .full)
  else
    let ids := out.ids.overwrite out.idIndex (Bytes.toLe 4 id.length)
    let idIndex := out.idIndex + 4
    let out : SearchResults :=
      { ids := ids.overwrite idIndex id
        dists := out.dists.set out.index distance
        index := out.index + 1
        idIndex := idIndex + id.length
        pushed := out.pushed ++ [id] }
    (out, if out.dists.length ≤ out.index ∨ out.ids.length ≤ out.idIndex then .full else .available)

/-- `push_id` -/
def pushId (out : SearchResults) (id : List UInt8) : SearchResults × BufferState := out.push id F32.zero

/-- What stands for an id in the buffer: its length, and its bytes. -/
def entry (id : List UInt8) : List UInt8 := Bytes.toLe 4 id.length ++ id

theorem length_entry (id : List UInt8) : (entry id).length = 4 + id.length := by
  rw [entry, length_append, Bytes.length_toLe]

/-- The buffer with some more ids. -/
def append (out : SearchResults) (members : List (List UInt8)) : SearchResults where
  ids := out.ids.overwrite out.idIndex (members.flatMap entry)
  dists := out.dists.overwrite out.index (replicate members.length F32.zero)
  index := out.index + members.length
  idIndex := out.idIndex + (members.flatMap entry).length
  pushed := out.pushed ++ members

/-- There is room for some more ids. -/
def Fits (out : SearchResults) (members : List (List UInt8)) : Prop :=
  out.index + members.length ≤ out.dists.length ∧
    out.idIndex + (members.flatMap entry).length ≤ out.ids.length

theorem append_nil (out : SearchResults) : out.append [] = out := by
  rw [append, flatMap_nil, length_nil, replicate_zero, overwrite_nil, overwrite_nil,
    List.append_nil]
  rfl

/-- A push for which there is room, and whether there is room for anything else. -/
theorem pushId_append (fits : out.Fits (members ++ [id])) :
    ((out.append members).pushId id).1 = out.append (members ++ [id]) ∧
      (((out.append members).pushId id).2 = .full ↔
        out.dists.length ≤ out.index + (members ++ [id]).length ∨
          out.ids.length ≤ out.idIndex + ((members ++ [id]).flatMap entry).length) := by
  have lengths : (members ++ [id]).length = members.length + 1 ∧
      ((members ++ [id]).flatMap entry).length = (members.flatMap entry).length + 4 + id.length := by
    rw [flatMap_append, flatMap_singleton, length_append, length_append, length_entry,
      add_assoc]
    exact ⟨rfl, rfl⟩
  obtain ⟨slots, bytes⟩ := fits
  have dists : (out.append members).dists.length = out.dists.length :=
    length_overwrite (by rw [length_replicate]; omega)
  have ids : (out.append members).ids.length = out.ids.length := length_overwrite (by omega)
  have room : ¬ ((out.append members).dists.length ≤ (out.append members).index ∨
      (out.append members).ids.length < (out.append members).idIndex + 4 + id.length) := by
    rw [dists, ids]
    simp only [append]
    omega
  have within : out.idIndex ≤ out.ids.length := by omega
  have wrote : ((out.append members).ids.overwrite (out.append members).idIndex
      (Bytes.toLe 4 id.length)).overwrite ((out.append members).idIndex + 4) id =
      out.ids.overwrite out.idIndex ((members ++ [id]).flatMap entry) := by
    calc _ = (out.ids.overwrite out.idIndex (members.flatMap entry ++ Bytes.toLe 4 id.length)).overwrite
          (out.idIndex + (members.flatMap entry ++ Bytes.toLe 4 id.length).length) id := by
          rw [← overwrite_overwrite within, length_append]
          rfl
      _ = _ := by
          rw [overwrite_overwrite within, flatMap_append, flatMap_singleton, entry,
            append_assoc]
  have set : (out.append members).dists.set (out.append members).index F32.zero =
      out.dists.overwrite out.index (replicate (members ++ [id]).length F32.zero) := by
    rw [set_eq_overwrite (by rw [dists]; simp only [append]; omega), lengths.1, replicate_succ',
      ← overwrite_overwrite (by omega), length_replicate]
    rfl
  rw [pushId, push, if_neg room]
  simp only [wrote, set]
  rw [length_overwrite (by rw [length_replicate]; omega), length_overwrite bytes, lengths.1,
    lengths.2]
  refine ⟨?_, ?_⟩
  · simp only [append, lengths, add_assoc, append_assoc]
  · simp only [append, add_assoc, ite_eq_left_iff, reduceCtorEq, imp_false, not_not]

end SearchResults

namespace Provider

/-! ## Sampling -/

def usizeMax : ℕ := 2 ^ 64 - 1

/-- `saturating_mul` -/
def saturatingMul (a b : ℕ) : ℕ := min (a * b) usizeMax

/-- What `rand::seq::index::sample` answers when it is called for the n-th time, for an id space and an
amount: distinct indices. -/
structure Sampler where
  draw : ℕ → ℕ → ℕ → List ℕ
  nodup : ∀ round space amount, (draw round space amount).Nodup
  length : ∀ round space amount, amount ≤ space → (draw round space amount).length = amount
  below : ∀ round space amount, amount ≤ space → ∀ id ∈ draw round space amount, id < space

/-- A sample of the size of the id space is all of it. -/
theorem Sampler.mem_draw (sampler : Sampler) (round : ℕ) {space id : ℕ} (inside : id < space) :
    id ∈ sampler.draw round space space := by
  have within : (sampler.draw round space space).toFinset ⊆ Finset.range space := fun other mem =>
    Finset.mem_range.mpr (sampler.below round space space le_rfl other (mem_toFinset.mp mem))
  have all := Finset.eq_of_subset_of_card_le within (by
    rw [toFinset_card_of_nodup (sampler.nodup ..), sampler.length _ _ _ le_rfl, Finset.card_range])
  rw [← mem_toFinset, all]
  exact Finset.mem_range.mpr inside

/-- A sampler that draws the last ids. -/
def Sampler.last : Sampler where
  draw _ space amount := range' (space - amount) amount
  nodup _ _ _ := nodup_range'
  length _ _ _ _ := length_range'
  below _ space amount le id member := by
    obtain ⟨-, lt⟩ := mem_range'_1.mp member
    omega

/-- A number of ids to sample. -/
structure Batch (space : ℕ) where
  size : ℕ
  pos : 0 < size
  le : size ≤ space
  space_le : space ≤ usizeMax

/-- The first batch, after `clamp`. -/
def Batch.clamp (maxId : BitVec 32) (amount : ℕ) : Batch (maxId.toNat + 1) where
  size := max 1 (min amount (maxId.toNat + 1))
  pos := Nat.lt_of_lt_of_le Nat.zero_lt_one (le_max_left ..)
  le := max_le (Nat.le_add_left ..) (min_le_right ..)
  space_le := by
    have := maxId.isLt
    rw [usizeMax]
    omega

/-- A batch of twice the size. -/
def Batch.grow {space : ℕ} (batch : Batch space) : Batch space where
  size := min (saturatingMul batch.size 2) space
  pos := by
    have := batch.pos
    have := batch.le
    rw [saturatingMul, usizeMax]
    omega
  le := min_le_right ..
  space_le := batch.space_le

theorem Batch.lt_grow {space : ℕ} (batch : Batch space) (part : batch.size ≠ space) :
    batch.size < batch.grow.size := by
  have pos := batch.pos
  have le := batch.le
  have space_le := batch.space_le
  change _ < min (min (batch.size * 2) usizeMax) space
  omega

/-! ## The loop -/

/-- What changes in the loop of `random_members`. -/
structure Members where
  chosen : Finset ℕ
  remaining : ℕ
  output : SearchResults

variable {τ V Q : Type} {maxDegree : ℕ}

/-- `max_internal_id` -/
def State.maxInternalId {E : Type} (s : State τ V Q E maxDegree) : BitVec 32 :=
  BitVec.ofNat 32 (s.fsm.idMinter.nextId - 1)

/-- One sample, up to the output with which the function returns. -/
def State.consider (s : State τ V Q (List UInt8) maxDegree) : List ℕ → Members → Members ⊕ SearchResults
  | [], m => .inl m
  | samp :: rest, m =>
      let samp := samp % 2 ^ 32
      if samp ∈ m.chosen then s.consider rest m
      else
        let chosen := m.chosen ∪ {samp}
        match s.extMap samp with
        | none => s.consider rest { m with chosen }
        | some eid =>
            let pushed := m.output.pushId eid
            let remaining := m.remaining - 1
            if remaining = 0 ∨ pushed.2 = .full then .inr pushed.1
            else s.consider rest ⟨chosen, remaining, pushed.1⟩

/-- The `while` loop. -/
def State.sampleRounds (s : State τ V Q (List UInt8) maxDegree) (sampler : Sampler) {space : ℕ} (round : ℕ)
    (batch : Batch space) (m : Members) : SearchResults :=
  if m.remaining = 0 then m.output
  else
    match s.consider (sampler.draw round space batch.size) m with
    | .inr output => output
    | .inl m =>
        if whole : batch.size = space then m.output
        else s.sampleRounds sampler (round + 1) batch.grow m
termination_by space - batch.size
decreasing_by
  have := batch.lt_grow whole
  have := batch.le
  omega

/-- `random_members` -/
def State.randomMembers (s : State τ V Q (List UInt8) maxDegree) (sampler : Sampler) (count : ℕ)
    (output : SearchResults) : Bool × SearchResults :=
  let idSpace := s.maxInternalId.toNat + 1
  let totalVectors := s.fsm.totalUsed.toNat
  let remaining := min count totalVectors
  let divisor := max totalVectors 1
  let batch := Batch.clamp s.maxInternalId ((saturatingMul remaining idSpace + divisor - 1) / divisor)
  (true, s.sampleRounds sampler 0 batch ⟨∅, remaining, output⟩)

/-! ## What is drawn -/

section Drawn

variable {s : State τ V Q (List UInt8) maxDegree} {out : SearchResults} {m : Members} {quota : ℕ}
  {ids : List ℕ}

/-- Distinct ids that have external ones. -/
structure State.Mapping (s : State τ V Q (List UInt8) maxDegree) (ids : List ℕ) : Prop where
  nodup : ids.Nodup
  mapped : ∀ id ∈ ids, s.extMap id ≠ none

/-- The output has room for the external ids of any choice of so many ids. -/
def State.RoomFor (s : State τ V Q (List UInt8) maxDegree) (quota : ℕ) (out : SearchResults) : Prop :=
  ∀ ids, s.Mapping ids → ids.length ≤ quota → out.Fits (ids.filterMap s.extMap)

/-- In the loop: some ids were pushed, which are the ones with an external id among those chosen. -/
structure Members.Pushed (s : State τ V Q (List UInt8) maxDegree) (out : SearchResults) (quota : ℕ)
    (m : Members) (ids : List ℕ) : Prop where
  mapping : s.Mapping ids
  chosen : ∀ id, s.extMap id ≠ none → (id ∈ m.chosen ↔ id ∈ ids)
  length : m.remaining + ids.length = quota
  output : m.output = out.append (ids.filterMap s.extMap)

/-- At the end: as many as were asked for, or all there are. -/
structure State.Drawn (s : State τ V Q (List UInt8) maxDegree) (out : SearchResults) (quota : ℕ)
    (ids : List ℕ) (output : SearchResults) : Prop where
  mapping : s.Mapping ids
  length : ids.length ≤ quota
  complete : ids.length = quota ∨ ∀ id, s.extMap id ≠ none → id ∈ ids
  output : output = out.append (ids.filterMap s.extMap)

theorem State.Mapping.concat {id : ℕ} (mapping : s.Mapping ids) (mapped : s.extMap id ≠ none)
    (fresh : id ∉ ids) : s.Mapping (ids ++ [id]) where
  nodup := concat_eq_append ▸ mapping.nodup.concat fresh
  mapped := fun other mem => by
    obtain old | rfl := mem_append.mp mem |>.imp_right mem_singleton.mp
    · exact mapping.mapped other old
    · exact mapped

theorem State.Mapping.length_filterMap (mapping : s.Mapping ids) :
    (ids.filterMap s.extMap).length = ids.length := by
  rw [length_filterMap_eq_countP, countP_eq_length]
  exact fun id mem => Option.isSome_iff_ne_none.mpr (mapping.mapped id mem)

open SearchResults

/-- A push that leaves no room was the last. -/
theorem State.RoomFor.complete (room : s.RoomFor quota out) (mapping : s.Mapping ids)
    (full : out.dists.length ≤ out.index + (ids.filterMap s.extMap).length ∨
      out.ids.length ≤ out.idIndex + ((ids.filterMap s.extMap).flatMap entry).length)
    (short : ids.length < quota) (id : ℕ) (mapped : s.extMap id ≠ none) : id ∈ ids := by
  by_contra fresh
  obtain ⟨eid, found⟩ := Option.ne_none_iff_exists'.mp mapped
  have fits := room _ (mapping.concat mapped fresh) (by rw [length_append, length_singleton]; omega)
  rw [filterMap_append, filterMap_cons_some found, filterMap_nil, SearchResults.Fits,
    flatMap_append, flatMap_singleton, length_append, length_append,
    length_entry, length_singleton] at fits
  omega

/-- How a sample of ids ends: with all of some ids chosen and something left to push, or with the
output. -/
def State.Considered (s : State τ V Q (List UInt8) maxDegree) (out : SearchResults) (quota : ℕ)
    (covered : ℕ → Prop) : Members ⊕ SearchResults → Prop
  | .inl m => (∃ ids, m.Pushed s out quota ids) ∧ 0 < m.remaining ∧ ∀ id, covered id → id ∈ m.chosen
  | .inr output => ∃ ids, s.Drawn out quota ids output

theorem State.Considered.mono {covered covered' : ℕ → Prop} {result : Members ⊕ SearchResults}
    (considered : s.Considered out quota covered result) (fewer : ∀ id, covered' id → covered id) :
    s.Considered out quota covered' result := by
  cases result with
  | inl m => exact ⟨considered.1, considered.2.1, fun id mem => considered.2.2 id (fewer id mem)⟩
  | inr output => exact considered

theorem State.consider_spec (room : s.RoomFor quota out) (samples : List ℕ)
    (small : ∀ samp ∈ samples, samp < 2 ^ 32) (pushed : m.Pushed s out quota ids) (more : 0 < m.remaining) :
    s.Considered out quota (fun id => id ∈ m.chosen ∨ id ∈ samples) (s.consider samples m) := by
  induction samples generalizing m ids with
  | nil => exact ⟨⟨ids, pushed⟩, more, fun id => (or_iff_left (not_mem_nil)).mp⟩
  | cons samp rest ih =>
    obtain ⟨here, small⟩ := forall_mem_cons.mp small
    rw [consider]
    rw [mod_eq_of_lt here]
    split_ifs with seen
    · -- considered on an earlier round
      refine (ih small pushed more).mono fun id mem => ?_
      rw [mem_cons] at mem
      obtain old | rfl | later := mem
      · exact .inl old
      · exact .inl seen
      · exact .inr later
    · have covers (id : ℕ) (mem : id ∈ m.chosen ∨ id ∈ samp :: rest) :
          id ∈ m.chosen ∪ {samp} ∨ id ∈ rest := by
        rw [Finset.mem_union, Finset.mem_singleton, or_assoc, ← mem_cons]
        exact mem
      cases found : s.extMap samp with
      | none =>
        have next : Members.Pushed s out quota { m with chosen := m.chosen ∪ {samp} } ids :=
          { pushed with
            chosen := fun id mapped => by
              have other : id ≠ samp := fun same => mapped (same ▸ found)
              rw [Finset.mem_union, Finset.mem_singleton, or_iff_left other]
              exact pushed.chosen id mapped }
        exact (ih small next more).mono covers
      | some eid =>
        have mapped : s.extMap samp ≠ none := found ▸ Option.some_ne_none eid
        have fresh : samp ∉ ids := fun mem => seen ((pushed.chosen samp mapped).mpr mem)
        have mapping := pushed.mapping.concat mapped fresh
        have members : (ids ++ [samp]).filterMap s.extMap = ids.filterMap s.extMap ++ [eid] := by
          rw [filterMap_append, filterMap_cons_some found, filterMap_nil]
        have length : m.remaining - 1 + (ids ++ [samp]).length = quota := by
          rw [← pushed.length, length_append, length_singleton]
          omega
        have few : (ids ++ [samp]).length ≤ quota := length ▸ Nat.le_add_left ..
        have fits := room _ mapping few
        rw [members] at fits
        obtain ⟨append, full_iff⟩ := pushId_append fits
        dsimp only
        rw [pushed.output, append, ← members]
        rw [← members] at full_iff
        split_ifs with stop
        · refine ⟨ids ++ [samp], mapping, few, ?_, rfl⟩
          obtain last | full := stop
          · exact .inl (by rw [← length, last, zero_add])
          · exact few.eq_or_lt.imp_right (room.complete mapping (full_iff.mp full))
        · have next : Members.Pushed s out quota ⟨m.chosen ∪ {samp}, m.remaining - 1,
              out.append ((ids ++ [samp]).filterMap s.extMap)⟩ (ids ++ [samp]) :=
            { mapping
              chosen := fun id mapped => by
                rw [Finset.mem_union, Finset.mem_singleton, mem_append, mem_singleton]
                exact or_congr_left (pushed.chosen id mapped)
              length
              output := rfl }
          exact (ih small next (pos_of_ne_zero (not_or.mp stop).1)).mono covers

/-- The rounds go on until enough ids were pushed or a sample has covered the whole id space. -/
theorem State.sampleRounds_spec (room : s.RoomFor quota out) (sampler : Sampler) {space : ℕ} (round : ℕ)
    (batch : Batch space) (small : space ≤ 2 ^ 32) (mapped : ∀ id, s.extMap id ≠ none → id < space)
    (pushed : m.Pushed s out quota ids) :
    ∃ ids', s.Drawn out quota ids' (s.sampleRounds sampler round batch m) := by
  have considered (round : ℕ) (batch : Batch space) {m : Members} {ids : List ℕ}
      (pushed : m.Pushed s out quota ids) (more : m.remaining ≠ 0) :=
    s.consider_spec room (sampler.draw round space batch.size)
      (fun samp mem => (sampler.below _ _ _ batch.le samp mem).trans_le small) pushed
      (pos_of_ne_zero more)
  fun_induction s.sampleRounds sampler round batch m generalizing ids with
  | case1 round batch m enough =>
    have length := pushed.length
    rw [enough, zero_add] at length
    exact ⟨ids, pushed.mapping, length.le, .inl length, pushed.output⟩
  | case2 round batch m more output ended =>
    have spec := considered round batch pushed more
    rw [ended] at spec
    exact spec
  | case3 round batch m more m' ended whole =>
    have spec := considered round batch pushed more
    rw [ended] at spec
    obtain ⟨⟨ids', pushed'⟩, -, covers⟩ := spec
    refine ⟨ids', pushed'.mapping, pushed'.length ▸ Nat.le_add_left .., .inr fun id found => ?_,
      pushed'.output⟩
    rw [← pushed'.chosen id found]
    exact covers id (.inr (whole.symm ▸ sampler.mem_draw round (mapped id found)))
  | case4 round batch m more m' ended part ih =>
    have spec := considered round batch pushed more
    rw [ended] at spec
    obtain ⟨⟨ids', pushed'⟩, -, -⟩ := spec
    exact ih pushed'

end Drawn

/-! ## Exactness -/

variable {s : State τ V Q (List UInt8) maxDegree} {out : SearchResults} {count quota : ℕ} {ids : List ℕ}

/-- The number of ids with an external id. -/
noncomputable def State.mappedCount (s : State τ V Q (List UInt8) maxDegree) : ℕ :=
  {id | s.extMap id ≠ none}.ncard

/-- The ids in use are counted, and ids in use and those with an external id were handed out. -/
structure State.Counted (s : State τ V Q (List UInt8) maxDegree) : Prop where
  total : s.fsm.totalUsed.toNat = s.fsm.setBits
  used_lt : ∀ id, s.fsm.used id = true → id < s.fsm.idMinter.nextId
  mapped_lt : ∀ id, s.extMap id ≠ none → id < s.fsm.idMinter.nextId
  nextId_le : s.fsm.idMinter.nextId ≤ Fsm.u32Max

/-- An external id that leads to an id in use, which leads back. -/
def State.Live (s : State τ V Q (List UInt8) maxDegree) (external : List UInt8) : Prop :=
  ∃ id, s.intMap external = some id ∧ s.extMap id = some external ∧ s.fsm.used id = true

/-- `random_members` returned after it pushed as many external ids as it should, all of them distinct and
live. -/
def State.Samples (s : State τ V Q (List UInt8) maxDegree) (count : ℕ) (out : SearchResults)
    (result : Bool × SearchResults) : Prop :=
  ∃ members, members.length = min count s.mappedCount ∧ members.Nodup ∧ (∀ external ∈ members, s.Live external) ∧
    result = (true, out.append members)

/-- Every id with an external id is in use, and is the one its external id leads to. -/
def State.Faithful (s : State τ V Q (List UInt8) maxDegree) : Prop :=
  ∀ id external, s.extMap id = some external → s.intMap external = some id ∧ s.fsm.used id = true

theorem State.Counted.finite (counted : s.Counted) : {id | s.extMap id ≠ none}.Finite :=
  (Set.finite_lt_nat s.fsm.idMinter.nextId).subset counted.mapped_lt

theorem State.Mapping.length_le (mapping : s.Mapping ids) (counted : s.Counted) :
    ids.length ≤ s.mappedCount := by
  rw [← toFinset_card_of_nodup mapping.nodup, ← Set.ncard_coe_finset]
  refine Set.ncard_le_ncard (fun id mem => ?_) counted.finite
  exact mapping.mapped id (mem_toFinset.mp (Finset.mem_coe.mp mem))

theorem State.Mapping.mem_of_length (mapping : s.Mapping ids) (counted : s.Counted)
    (all : s.mappedCount ≤ ids.length) {id : ℕ} (mapped : s.extMap id ≠ none) : id ∈ ids := by
  by_contra fresh
  have more := (mapping.concat mapped fresh).length_le counted
  rw [length_append, length_singleton] at more
  omega

theorem State.Drawn.length_eq {output : SearchResults} (drawn : s.Drawn out quota ids output)
    (counted : s.Counted) : ids.length = min quota s.mappedCount := by
  have few := drawn.mapping.length_le counted
  have enough : ids.length = quota ∨ s.mappedCount ≤ ids.length := by
    refine drawn.complete.imp_right fun all => ?_
    rw [← toFinset_card_of_nodup drawn.mapping.nodup, ← Set.ncard_coe_finset]
    exact Set.ncard_le_ncard fun id mapped => Finset.mem_coe.mpr (mem_toFinset.mpr (all id mapped))
  have length := drawn.length
  omega

theorem State.randomMembers_drawn (counted : s.Counted) (room : s.RoomFor count out) (sampler : Sampler) :
    ∃ ids output, s.Drawn out (min count s.fsm.totalUsed.toNat) ids output ∧
      s.randomMembers sampler count out = (true, output) := by
  have last : s.maxInternalId.toNat = s.fsm.idMinter.nextId - 1 := by
    have := counted.nextId_le
    rw [Fsm.u32Max] at this
    rw [maxInternalId, BitVec.toNat_ofNat, mod_eq_of_lt (by omega)]
  have mapped (id : ℕ) (found : s.extMap id ≠ none) : id < s.maxInternalId.toNat + 1 := by
    have := counted.mapped_lt id found
    omega
  have start : Members.Pushed s out (min count s.fsm.totalUsed.toNat)
      ⟨∅, min count s.fsm.totalUsed.toNat, out⟩ [] :=
    { mapping := ⟨nodup_nil, fun _ mem => absurd mem not_mem_nil⟩
      chosen := fun id _ => iff_of_false (Finset.notMem_empty id) not_mem_nil
      length := rfl
      output := out.append_nil.symm }
  have fewer : s.RoomFor (min count s.fsm.totalUsed.toNat) out := fun ids mapping few =>
    room ids mapping (few.trans (min_le_left ..))
  obtain ⟨ids, drawn⟩ := s.sampleRounds_spec fewer sampler 0 (.clamp s.maxInternalId _)
    s.maxInternalId.isLt mapped start
  exact ⟨ids, _, drawn, rfl⟩

theorem State.Faithful.samples (faithful : s.Faithful) (counted : s.Counted) (room : s.RoomFor count out)
    (sampler : Sampler) : s.Samples count out (s.randomMembers sampler count out) := by
  obtain ⟨ids, output, drawn, returned⟩ := s.randomMembers_drawn counted room sampler
  have total : s.mappedCount ≤ s.fsm.totalUsed.toNat := by
    rw [counted.total]
    refine Set.ncard_le_ncard (fun id mapped => ?_)
      ((Set.finite_lt_nat s.fsm.idMinter.nextId).subset counted.used_lt)
    obtain ⟨external, found⟩ := Option.ne_none_iff_exists'.mp mapped
    exact (faithful id external found).2
  have length := drawn.length_eq counted
  refine ⟨ids.filterMap s.extMap, ?_, ?_, fun external mem => ?_, ?_⟩
  · rw [drawn.mapping.length_filterMap, length, min_assoc, min_eq_right total]
  · refine drawn.mapping.nodup.filterMap fun id other external here there => ?_
    exact Option.some.inj ((faithful id external here).1.symm.trans (faithful other external there).1)
  · obtain ⟨id, -, found⟩ := mem_filterMap.mp mem
    exact ⟨id, (faithful id external found).1, found, (faithful id external found).2⟩
  · rw [returned, drawn.output]

/-- Some output is large enough. -/
theorem State.Counted.exists_roomFor (counted : s.Counted) (count : ℕ) : ∃ out, s.RoomFor count out := by
  let bytes (id : ℕ) : ℕ := (s.extMap id).elim 0 fun external => (SearchResults.entry external).length
  let size := ∑ id ∈ Finset.range s.fsm.idMinter.nextId, bytes id
  refine ⟨⟨List.replicate size 0, List.replicate count F32.zero, 0, 0, []⟩, fun ids mapping few => ?_⟩
  have written : ((ids.filterMap s.extMap).flatMap SearchResults.entry).length = (ids.map bytes).sum := by
    clear mapping few
    induction ids with
    | nil => rfl
    | cons id ids ih =>
      rw [map_cons, sum_cons, ← ih]
      cases found : s.extMap id with
      | none => rw [filterMap_cons_none found, show bytes id = 0 by simp only [bytes, found, Option.elim],
          zero_add]
      | some external => rw [filterMap_cons_some found, flatMap_cons, length_append,
          show bytes id = (SearchResults.entry external).length by simp only [bytes, found, Option.elim]]
  rw [SearchResults.Fits, mapping.length_filterMap, written, length_replicate, length_replicate,
    zero_add, zero_add, ← sum_toFinset bytes mapping.nodup]
  refine ⟨few, Finset.sum_le_sum_of_subset fun id mem => ?_⟩
  exact Finset.mem_range.mpr (counted.mapped_lt id (mapping.mapped id (mem_toFinset.mp mem)))

/-- If all ids with external ones are asked for and what comes out is as it should be, so is the map. -/
theorem State.Samples.faithful (counted : s.Counted) (room : s.RoomFor s.mappedCount out) {sampler : Sampler}
    (samples : s.Samples s.mappedCount out (s.randomMembers sampler s.mappedCount out)) : s.Faithful := by
  obtain ⟨ids, output, drawn, returned⟩ := s.randomMembers_drawn counted room sampler
  obtain ⟨members, length, nodup, live, res⟩ := samples
  have same : ids.filterMap s.extMap = members := by
    have outputs : output = out.append members := congrArg Prod.snd (returned.symm.trans res)
    rw [drawn.output] at outputs
    exact append_cancel_left (congrArg SearchResults.pushed outputs)
  subst same
  rw [drawn.mapping.length_filterMap, min_self] at length
  have all {id : ℕ} {external : List UInt8} (found : s.extMap id = some external) : id ∈ ids :=
    drawn.mapping.mem_of_length counted length.ge (found ▸ Option.some_ne_none external)
  intro id external found
  obtain ⟨other, inside, back, used⟩ := live external (mem_filterMap.mpr ⟨id, all found, found⟩)
  obtain rfl : id = other := by
    by_contra differ
    have symmetric : Std.Symm fun a b => ∀ e, s.extMap a = some e → ∀ e', s.extMap b = some e' → e ≠ e' :=
      ⟨fun _ _ apart e here e' there => (apart e' there e here).symm⟩
    have apart := (pairwise_filterMap.mp nodup).forall (all found) (all back) differ
    exact apart external found external back rfl
  exact ⟨inside, used⟩

/-- In a state whose ids in use are counted, every call of `random_members` pushes just what it should,
whatever the sampler draws, if and only if the maps agree. -/
theorem randomMembers_samples_iff (counted : s.Counted) :
    (∀ sampler count out, count ≤ Fsm.u32Max → s.RoomFor count out →
      s.Samples count out (s.randomMembers sampler count out)) ↔ s.Faithful := by
  constructor
  · intro samples
    obtain ⟨out, room⟩ := counted.exists_roomFor s.mappedCount
    have small : s.mappedCount ≤ Fsm.u32Max := by
      calc s.mappedCount ≤ (Finset.range s.fsm.idMinter.nextId : Set ℕ).ncard :=
            Set.ncard_le_ncard fun id mapped => Finset.mem_coe.mpr (Finset.mem_range.mpr (counted.mapped_lt id mapped))
        _ = s.fsm.idMinter.nextId := by rw [Set.ncard_coe_finset, Finset.card_range]
        _ ≤ Fsm.u32Max := counted.nextId_le
    exact (samples .last _ out small room).faithful counted room
  · intro faithful sampler count out _ room
    exact faithful.samples counted room sampler

/-! ## Reached states -/

section Reached

open Machine Prog

variable [DecidableEq τ] {settings : Settings V Q}

/-- An index that is opened over an empty store, is given its start point and goes through `set_element`
and `delete` calls that succeed. -/
inductive Reached (settings : Settings V Q) : State τ V Q (List UInt8) settings.maxDegree → Prop
  | opened {fails : ℕ → Bool} {s : State τ V Q (List UInt8) settings.maxDegree}
      (opened : new τ (List UInt8) settings fails = .ok s) : Reached settings s
  | started {fails : ℕ → Bool} {task : τ} {point : V} {s s' : State τ V Q (List UInt8) settings.maxDegree}
      (opened : new τ (List UInt8) settings fails = .ok s)
      (run : Runs (exec settings fun _ => false) task (maybeSetStartPoint settings point) s (.ok ()) s') :
      Reached settings s'
  | called {task : τ} {s s' : State τ V Q (List UInt8) settings.maxDegree} (reached : Reached settings s)
      (call : ElementCall V (List UInt8))
      (run : Runs (exec settings fun _ => false) task (call.code settings) s (.ok ()) s') :
      Reached settings s'

/-- Between two calls. -/
structure State.Kept (s : State τ V Q (List UInt8) maxDegree) : Prop where
  sound : s.fsm.Sound True
  rest : s.fsm.AtRest
  mapped : ∀ id, s.extMap id ≠ none → s.fsm.used id = true

theorem State.Kept.call {task : τ} {s s' : State τ V Q (List UInt8) maxDegree} (kept : s.Kept)
    (call : ElementCall V (List UInt8))
    (run : Runs (exec settings fun _ => false) task (call.code settings) s (.ok ()) s') : s'.Kept := by
  cases call with
  | setElement external element =>
    rw [ElementCall.code, monad_bind_eq, runs_bind_iff] at run
    obtain ⟨res, s₁, ran, run⟩ := run
    obtain ⟨here, rfl⟩ := run.of_ret
    cases res with
    | error error => cases here
    | ok id =>
      obtain ⟨sound, rest⟩ := rest_of_runs (fun _ _ => rfl) kept.sound kept.rest
        (fun _ calm => setElement_wp settings external element calm) ran
      obtain ⟨-, used, outside, -⟩ := setElement_runs_ok kept.sound kept.rest ran
      refine ⟨sound, rest, fun other mapped => ?_⟩
      rw [used]
      split_ifs with same
      · rfl
      · rw [outside, update_of_ne same] at mapped
        exact kept.mapped other mapped
  | delete external =>
    obtain ⟨sound, rest⟩ := rest_of_runs (fun _ _ => rfl) kept.sound kept.rest
      (fun _ calm => delete_wp external calm) run
    obtain ⟨id, -, used, outside, -⟩ := delete_runs_ok run
    refine ⟨sound, rest, fun other mapped => ?_⟩
    rw [outside] at mapped
    have differ : other ≠ id := by
      rintro rfl
      exact mapped (update_self ..)
    rw [update_of_ne differ] at mapped
    rw [used, if_neg differ]
    exact kept.mapped other mapped

theorem Reached.kept {s : State τ V Q (List UInt8) settings.maxDegree} (reached : Reached settings s) :
    s.Kept := by
  induction reached with
  | opened opened =>
    obtain ⟨map, clock, _, _, _, made, rfl⟩ := new_cases opened
    obtain ⟨sound, rest⟩ := Fsm.new_empty True made
    exact ⟨{ sound with }, { rest with }, fun _ mapped => (mapped rfl).elim⟩
  | started opened run =>
    have indexed := indexed_of_started opened run
    exact ⟨indexed.sound, indexed.rest, fun id mapped => (indexed.used_iff id).mpr (.inr mapped)⟩
  | called _ call run kept => exact kept.call call run

theorem Reached.counted {s : State τ V Q (List UInt8) settings.maxDegree} (reached : Reached settings s) :
    s.Counted := by
  obtain ⟨sound, rest, mapped⟩ := reached.kept
  have used_lt (id : ℕ) (used : s.fsm.used id = true) := (sound.used_lt id used).1
  exact ⟨sound.totalUsed_toNat rest.unsettled, used_lt, fun id found => used_lt id (mapped id found),
    sound.nextId_le⟩

end Reached

open Machine Prog

/-- An empty index whose external ids are byte strings. -/
def nameless : State Unit ℕ Unit (List UInt8) 2 := .empty (List UInt8) plain emptyIndex.fsm

/-- The state after a call that succeeds. -/
def after (code : Code ℕ Unit (List UInt8) 2 (Except GarnetProviderError Unit))
    (s : State Unit ℕ Unit (List UInt8) 2) (ends : (evaluate (exec plain fun _ => false) () 60 code s).isSome) :
    State Unit ℕ Unit (List UInt8) 2 :=
  ((evaluate (exec plain fun _ => false) () 60 code s).get ends).2

def namelessStarted : State Unit ℕ Unit (List UInt8) 2 := after (maybeSetStartPoint plain 7) nameless rfl

/-- One element, under internal id 1. -/
def oneName : State Unit ℕ Unit (List UInt8) 2 :=
  after (ElementCall.code plain (.setElement [5] 8)) namelessStarted rfl

theorem oneName_reached : Reached plain oneName := by
  have opened : new Unit (List UInt8) plain (fun _ => false) = .ok nameless := rfl
  have run : Runs (exec plain fun _ => false) () (maybeSetStartPoint plain 7) nameless (.ok ())
      namelessStarted := Runs.get_evaluate _ () 60 _ nameless rfl
  have started : Reached plain namelessStarted := .started opened run
  exact started.called (.setElement [5] 8) (Runs.get_evaluate _ () 60 _ namelessStarted rfl)

/-- A second element is added and the first one deleted, so that id 1 is a hole. -/
def holed : State Unit ℕ Unit (List UInt8) 2 :=
  after (ElementCall.code plain (.delete [5]))
    (after (ElementCall.code plain (.setElement [6] 9)) oneName rfl) rfl

theorem randomMembers_samples_holed : Reached plain holed ∧ holed.fsm.used 1 = false ∧
    holed.fsm.used 2 = true ∧ ∀ sampler count out, count ≤ Fsm.u32Max → holed.RoomFor count out →
      holed.Samples count out (holed.randomMembers sampler count out) := by
  have second : Reached plain (after (ElementCall.code plain (.setElement [6] 9)) oneName rfl) :=
    oneName_reached.called (.setElement [6] 9) (Runs.get_evaluate _ () 60 _ oneName rfl)
  have reached : Reached plain holed := second.called (.delete [5]) (Runs.get_evaluate _ () 60 _ _ rfl)
  have faithful : holed.Faithful := by
    intro id external found
    rcases id with _ | _ | _ | id
    · cases found
    · cases found
    · obtain rfl : [6] = external := Option.some.inj found
      exact ⟨rfl, rfl⟩
    · cases found
  exact ⟨reached, rfl, rfl, (randomMembers_samples_iff reached.counted).mpr faithful⟩

/-- The element is set again under the same external id. -/
def sameName : State Unit ℕ Unit (List UInt8) 2 :=
  after (ElementCall.code plain (.setElement [5] 9)) oneName rfl

/-- Room for two short ids. -/
def twoEntries : SearchResults := ⟨replicate 10 0, replicate 2 F32.zero, 0, 0, []⟩

/-- Two members are asked for, and one comes out twice. -/
theorem randomMembers_repeats :
    Reached plain sameName ∧ sameName.Counted ∧ sameName.RoomFor 2 twoEntries ∧
      sameName.randomMembers .last 2 twoEntries = (true, twoEntries.append [[5], [5]]) ∧
      ¬ sameName.Samples 2 twoEntries (sameName.randomMembers .last 2 twoEntries) := by
  have reached : Reached plain sameName :=
    oneName_reached.called (.setElement [5] 9) (Runs.get_evaluate _ () 60 _ oneName rfl)
  have short (external : List UInt8) (ids : List ℕ) (member : external ∈ ids.filterMap sameName.extMap) :
      external = [5] := by
    obtain ⟨id, -, found⟩ := mem_filterMap.mp member
    rcases id with _ | _ | _ | id
    · cases found
    · exact (Option.some.inj found).symm
    · exact (Option.some.inj found).symm
    · cases found
  have room : sameName.RoomFor 2 twoEntries := by
    intro ids mapping few
    rw [eq_replicate_of_mem fun external => short external ids, mapping.length_filterMap,
      SearchResults.Fits, length_replicate, length_flatMap, map_replicate, sum_replicate,
      SearchResults.length_entry]
    constructor
    · change 0 + ids.length ≤ 2
      omega
    · change 0 + ids.length * 5 ≤ 10
      omega
  have result : sameName.randomMembers .last 2 twoEntries = (true, twoEntries.append [[5], [5]]) := by
    have ends : sameName.consider [1, 2] ⟨∅, 2, twoEntries⟩ = .inr (twoEntries.append [[5], [5]]) := rfl
    have call : sameName.randomMembers .last 2 twoEntries =
        (true, sameName.sampleRounds .last 0 (.clamp 2#32 2) ⟨∅, 2, twoEntries⟩) := rfl
    have draws : Sampler.last.draw 0 ((2#32).toNat + 1) (Batch.clamp 2#32 2).size = [1, 2] := rfl
    rw [call, State.sampleRounds, if_neg (by decide), draws, ends]
  refine ⟨reached, reached.counted, room, result, ?_⟩
  rw [result]
  rintro ⟨members, -, nodup, -, same⟩
  have repeated : [[5], [5]] = members := append_cancel_left
    (congrArg (fun result : Bool × SearchResults => result.2.pushed) same)
  rw [← repeated] at nodup
  simp at nodup

end Provider

end DiskAnn.Garnet
