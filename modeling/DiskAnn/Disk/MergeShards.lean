import DiskAnn.Data.List
import DiskAnn.Disk.Storage

/-! # Merging the graphs of the shards

`merge_shards` reads the graphs of all shards side by side, in the order of a list of (node, shard)
pairs, and writes the neighbors that a node has in any of its shards. -/

namespace DiskAnn.Disk

open List Nat

/-- `read_bin::<u32>`, row after row. -/
def readBinU32 (content : List UInt8) : Except Fault (List ℕ) := do
  let (npoints, reader) ← (FileReader.openReader content).readLe 4
  let (ndims, reader) ← reader.readLe 4
  let expected := npoints * ndims * 4
  if wordSize ≤ expected then
    .error (.error .other
      s!"header dimensions overflow: {npoints} points × {ndims} dims × 4 bytes overflows")
  else
    let available := content.length - 8
    if available < expected then
      .error (.error .other
        s!"binary data too short: header declares {npoints} points × {ndims} dims × 4 bytes = {expected} bytes, but only {available} bytes available")
    else do
      let (bytes, _) ← reader.readExact expected
      pure (Bytes.toWords (npoints * ndims) bytes)

/-- What was written for one shard: its ids, and its graph over their positions. -/
structure ShardFiles where
  idMap : List UInt8
  vamana : List UInt8

/-- The random number generator of the builder, of which only the shuffling is used. -/
structure Rng (ρ : Type) where
  shuffle : ρ → List ℕ → List ℕ × ρ
  perm : ∀ state list, (shuffle state list).1.Perm list

/-- All pairs of a node and a shard that holds it. -/
def inverseMap (idMaps : List (List ℕ)) : List (ℕ × ℕ) :=
  idMaps.zipIdx.flatMap fun (idMap, shard) => idMap.map fun node => (node, shard % 2 ^ 32)

/-- The pairs by node, and by shard for one node. -/
def nodeShard (idMaps : List (List ℕ)) : List (ℕ × ℕ) :=
  (inverseMap idMaps).mergeSort fun left right => toLex left ≤ toLex right

/-- Reads the width that each graph declares. -/
def readWidth (reader : CachedReader) : Except Fault CachedReader := do
  let (_, reader) ← reader.read 8
  let (_, reader) ← reader.readU32
  pure reader

/-- Reads the medoid of each graph, and writes the last one under its own id. -/
def renameMedoids : List (List ℕ × CachedReader) → CachedWriter →
    Except Fault (List CachedReader × CachedWriter)
  | [], writer => pure ([], writer)
  | (idMap, reader) :: rest, writer => do
    let (medoid, reader) ← reader.readU32
    let (_, reader) ← reader.read 8
    match idMap[medoid]? with
    | none => .error .panic
    | some medoid =>
      let writer := if rest.isEmpty then writer.write (Bytes.toLe 4 medoid) else writer
      let (readers, writer) ← renameMedoids rest writer
      pure (reader :: readers, writer)

/-- The state of the loop over the pairs. -/
structure MergeState (ρ : Type) where
  readers : List CachedReader
  writer : CachedWriter
  mergedIndexSize : ℕ
  nbrSet : List Bool
  finalNbrs : List ℕ
  curId : ℕ
  rng : ρ

namespace MergeState

variable {ρ : Type}

/-- Writes the node whose neighbors have been collected. -/
def writeNode (rng : Rng ρ) (maxDegree : ℕ) (s : MergeState ρ) : MergeState ρ :=
  let (finalNbrs, state) := rng.shuffle s.rng s.finalNbrs
  let nnbrs := min (finalNbrs.length % 2 ^ 32) maxDegree
  let writer := (s.writer.write (Bytes.toLe 4 nnbrs)).write (Bytes.ofWords (finalNbrs.take nnbrs))
  { s with
    writer, finalNbrs
    mergedIndexSize := u64 (s.mergedIndexSize + (4 + nnbrs * 4))
    rng := state }

/-- Goes on to the next node. -/
def nextNode (node : ℕ) (s : MergeState ρ) : MergeState ρ :=
  { s with
    curId := node
    nbrSet := s.finalNbrs.foldl (fun nbrSet nbr => nbrSet.set nbr false) s.nbrSet
    finalNbrs := [] }

/-- Adds one neighbor under its own id, if it is not there yet. -/
def addNbr (idMap : List ℕ) : List Bool × List ℕ → ℕ → Except Fault (List Bool × List ℕ)
  | (nbrSet, finalNbrs), nbr =>
    match idMap[nbr]? with
    | none => .error .panic
    | some renamed =>
      match nbrSet[renamed]? with
      | none => .error .panic
      | some true => .ok (nbrSet, finalNbrs)
      | some false => .ok (nbrSet.set renamed true, finalNbrs ++ [renamed])

/-- Reads the next list of a shard. -/
def readNode (idMaps : List (List ℕ)) (shard : ℕ) (s : MergeState ρ) : Except Fault (MergeState ρ) :=
  match s.readers[shard]?, idMaps[shard]? with
  | some reader, some idMap => do
    let (numNbrs, reader) ← reader.readU32
    if numNbrs = 0 then pure { s with readers := s.readers.set shard reader }
    else
      let (nbrsBytes, reader) ← reader.read (numNbrs * 4)
      let (nbrSet, finalNbrs) ←
        (Bytes.toWords numNbrs nbrsBytes).foldlM (addNbr idMap) (s.nbrSet, s.finalNbrs)
      pure { s with readers := s.readers.set shard reader, nbrSet, finalNbrs }
  | _, _ => .error .panic

def step (rng : Rng ρ) (maxDegree : ℕ) (idMaps : List (List ℕ)) (s : MergeState ρ) :
    ℕ × ℕ → Except Fault (MergeState ρ)
  | (node, shard) =>
    if s.curId < node then ((s.writeNode rng maxDegree).nextNode node).readNode idMaps shard
    else s.readNode idMaps shard

end MergeState

variable {ρ : Type}

/-- The merged file, and the generator after it. -/
def mergeShards (rng : Rng ρ) (state : ρ) (shards : List ShardFiles) (maxDegree : ℕ) :
    Except Fault (List UInt8 × ρ) := do
  let idMaps ← shards.mapM fun shard => readBinU32 shard.idMap
  let numNodes := (idMaps.flatten.max?.getD 0 + 1) % 2 ^ 32
  let readers ← shards.mapM fun shard => CachedReader.new shard.vamana readWriteBlockSize
  let writer ← CachedWriter.new readWriteBlockSize .createForWrite
  let vamanaMetadataSize := 8 + 4 + 4 + 8
  -- the size is written again at the end
  let writer := writer.write (Bytes.toLe 8 vamanaMetadataSize)
  let readers ← readers.mapM readWidth
  let writer := writer.write (Bytes.toLe 4 maxDegree)
  let (readers, writer) ← renameMedoids (idMaps.zip readers) writer
  let writer := writer.write (Bytes.toLe 8 0)
  let s ← (nodeShard idMaps).foldlM (MergeState.step rng maxDegree idMaps)
    { readers, writer, mergedIndexSize := vamanaMetadataSize
      nbrSet := List.replicate numNodes false, finalNbrs := [], curId := 0, rng := state }
  let s := s.writeNode rng maxDegree
  pure ((s.writer.reset.write (Bytes.toLe 8 s.mergedIndexSize)).drop, s.rng)

/-! ## Shards -/

/-- A shard that was partitioned off and built. -/
structure Shard where
  ids : List ℕ
  lists : List (List ℕ)
  size : ℕ
  width : ℕ
  medoid : ℕ
  frozen : ℕ
  ascending : ids.Pairwise (· < ·)
  ids_lt : ∀ id ∈ ids, id < 2 ^ 32
  length_lt : ids.length < 2 ^ 32
  length_lists : lists.length = ids.length
  list_lt : ∀ list ∈ lists, list.length < 2 ^ 32
  nbr_lt : ∀ list ∈ lists, ∀ nbr ∈ list, nbr < ids.length
  medoid_lt : medoid < ids.length
  width_lt : width < 2 ^ 32

namespace Shard

variable (shard : Shard)

def idMapFile : List UInt8 :=
  Bytes.toLe 4 shard.ids.length ++ (Bytes.toLe 4 1 ++ Bytes.ofWords shard.ids)

def vamanaFile : List UInt8 :=
  vamanaHeader shard.size shard.width shard.medoid shard.frozen ++ shard.lists.flatMap adjacencyRecord

def files : ShardFiles := ⟨shard.idMapFile, shard.vamanaFile⟩

/-- The ids of the neighbors that a node has in the shard. -/
def neighbors (node : ℕ) : List ℕ :=
  if node ∈ shard.ids then
    (shard.lists.getD (shard.ids.idxOf node) []).map fun nbr => shard.ids.getD nbr 0
  else []

/-- The shard has a list that names its own vertex. -/
def SelfLoop : Prop := ∃ (i : ℕ) (list : List ℕ), shard.lists[i]? = some list ∧ i ∈ list

theorem nodup_ids : shard.ids.Nodup := shard.ascending.imp ne_of_lt

theorem neighbors_of_getElem? {shard : Shard} {i node : ℕ} {list : List ℕ}
    (here : shard.ids[i]? = some node) (listed : shard.lists[i]? = some list) :
    shard.neighbors node = list.map fun nbr => shard.ids.getD nbr 0 := by
  obtain ⟨bound, rfl⟩ := List.getElem?_eq_some_iff.mp here
  rw [neighbors, if_pos (getElem_mem bound), shard.nodup_ids.idxOf_getElem i bound, getD_eq_getElem?_getD,
    listed]
  rfl

theorem readBinU32_idMapFile : readBinU32 shard.idMapFile = .ok shard.ids := by
  obtain ⟨r₁, first, rest₁⟩ := FileReader.readLe_of_rest (r := .openReader shard.idMapFile) rfl
    (shard.length_lt.trans_eq rfl)
  obtain ⟨r₂, second, rest₂⟩ := FileReader.readLe_of_rest rest₁ (by decide : 1 < 256 ^ 4)
  have whole : r₂.rest = Bytes.ofWords shard.ids ++ [] := rest₂.trans (append_nil _).symm
  have third := (FileReader.readExact_of_rest whole).1
  have expected : shard.ids.length * 1 * 4 = (Bytes.ofWords shard.ids).length := by
    rw [Bytes.length_ofWords, mul_one]
  have length : shard.idMapFile.length - 8 = (Bytes.ofWords shard.ids).length := by
    simp [idMapFile]
    omega
  have fits : ¬ wordSize ≤ (Bytes.ofWords shard.ids).length := by
    have := shard.length_lt
    unfold wordSize
    omega
  rw [readBinU32, first]
  change (r₁.readLe 4 >>= _) = _
  rw [second]
  simp only [bind, Except.bind, expected, length, if_neg fits, if_neg (lt_irrefl _), third]
  rw [mul_one]
  exact congrArg Except.ok (Bytes.toWords_ofWords shard.ids_lt)

end Shard

/-! ## The order of the pairs -/

section Pairs

theorem flatMap_zipIdx_single {α β : Type*} {l : List α} {i : ℕ} {a : α} (here : l[i]? = some a)
    (f : α → List β) (start : ℕ) :
    ((l.zipIdx start).flatMap fun entry => if entry.2 = start + i then f entry.1 else []) = f a := by
  induction l generalizing start i with
  | nil => cases here
  | cons b l ih =>
    rw [zipIdx_cons, flatMap_cons]
    cases i with
    | zero =>
      obtain rfl : b = a := by simpa using here
      have rest : ((l.zipIdx (start + 1)).flatMap fun entry =>
          if entry.2 = start + 0 then f entry.1 else []) = [] := by
        refine flatMap_eq_nil_iff.mpr fun entry mem => if_neg ?_
        have := le_snd_of_mem_zipIdx mem
        omega
      rw [rest, append_nil]
      exact if_pos rfl
    | succ i =>
      have first : (if start = start + (i + 1) then f b else []) = [] := if_neg (by omega)
      rw [first, nil_append, ← ih here (start + 1), add_right_comm, ← add_assoc]

variable {idMaps : List (List ℕ)}

theorem mem_inverseMap (few : idMaps.length ≤ 2 ^ 32) {node shard : ℕ} :
    (node, shard) ∈ inverseMap idMaps ↔ ∃ idMap, idMaps[shard]? = some idMap ∧ node ∈ idMap := by
  rw [inverseMap, mem_flatMap]
  constructor
  · rintro ⟨⟨idMap, i⟩, entry, pair⟩
    obtain ⟨node', mem, same⟩ := mem_map.mp pair
    have here := mk_mem_zipIdx_iff_getElem?.mp entry
    obtain ⟨bound, -⟩ := List.getElem?_eq_some_iff.mp here
    rw [mod_eq_of_lt (by omega)] at same
    cases same
    exact ⟨idMap, here, mem⟩
  · rintro ⟨idMap, here, mem⟩
    obtain ⟨bound, -⟩ := List.getElem?_eq_some_iff.mp here
    refine ⟨(idMap, shard), mk_mem_zipIdx_iff_getElem?.mpr here, mem_map.mpr ⟨node, mem, ?_⟩⟩
    rw [mod_eq_of_lt (by omega)]

theorem filter_inverseMap (few : idMaps.length ≤ 2 ^ 32) {shard : ℕ} {idMap : List ℕ}
    (here : idMaps[shard]? = some idMap) :
    (inverseMap idMaps).filter (fun pair => pair.2 = shard) = idMap.map fun node => (node, shard) := by
  rw [inverseMap, filter_flatMap,
    ← flatMap_zipIdx_single here (fun idMap => idMap.map fun node => (node, shard)) 0]
  refine flatMap_congr fun entry mem => ?_
  have bound : entry.2 < 2 ^ 32 := by
    have := snd_lt_of_mem_zipIdx mem
    omega
  rw [zero_add, filter_map, mod_eq_of_lt bound]
  by_cases same : entry.2 = shard
  · rw [if_pos same, same, filter_eq_self.mpr]
    intro node _
    exact decide_eq_true rfl
  · rw [if_neg same, filter_eq_nil_iff.mpr]
    · rfl
    · intro node _
      exact decide_eq_true_iff.not.mpr same

variable (idMaps)

theorem nodeShard_perm : (nodeShard idMaps).Perm (inverseMap idMaps) :=
  mergeSort_perm _ _

theorem nodeShard_sorted :
    (nodeShard idMaps).Pairwise fun left right => toLex left ≤ toLex right := by
  refine (pairwise_mergeSort ?_ ?_ _).imp fun {left right} ordered => of_decide_eq_true ordered
  · intro a b c first second
    exact decide_eq_true ((of_decide_eq_true first).trans (of_decide_eq_true second))
  · intro a b
    rw [Bool.or_eq_true, decide_eq_true_iff, decide_eq_true_iff]
    exact le_total _ _

open Shard

/-- The pairs of one shard come in the order of its ids. -/
theorem map_fst_filter_nodeShard {shards : List Shard} (few : shards.length ≤ 2 ^ 32) {i : ℕ} {shard : Shard}
    (here : shards[i]? = some shard) :
    ((nodeShard (shards.map ids)).filter fun pair => pair.2 = i).map Prod.fst = shard.ids := by
  have listed : (shards.map ids)[i]? = some shard.ids := by
    rw [getElem?_map, here]
    rfl
  have perm := ((nodeShard_perm (shards.map ids)).filter fun pair => pair.2 = i).map Prod.fst
  rw [filter_inverseMap (by rwa [length_map]) listed, map_map] at perm
  have same : shard.ids.map (Prod.fst ∘ fun node => (node, i)) = shard.ids := map_id _
  rw [same] at perm
  refine perm.eq_of_pairwise' ?_ (shard.ascending.imp le_of_lt)
  refine pairwise_map.mpr (((nodeShard_sorted _).filter _).imp fun {left right} ordered => ?_)
  rcases Prod.Lex.toLex_le_toLex.mp ordered with less | ⟨same, -⟩
  · exact less.le
  · exact same.le

variable {shards : List Shard} {done rest : List (ℕ × ℕ)} {node i : ℕ} (few : shards.length ≤ 2 ^ 32)
include few

theorem shard_of_mem_nodeShard :
    (node, i) ∈ nodeShard (shards.map ids) ↔ ∃ shard, shards[i]? = some shard ∧ node ∈ shard.ids := by
  rw [(nodeShard_perm _).mem_iff, mem_inverseMap (by rwa [length_map]), getElem?_map]
  cases shards[i]? <;> simp

/-- A pair stands for the next id of its shard. -/
theorem getElem?_ids_of_split
    (split : done ++ (node, i) :: rest = nodeShard (shards.map ids)) {shard : Shard}
    (here : shards[i]? = some shard) : shard.ids[done.countP fun pair => pair.2 = i]? = some node := by
  have ids := map_fst_filter_nodeShard few here
  rw [← split, filter_append, filter_cons_of_pos (p := fun pair : ℕ × ℕ => pair.2 = i)
    (decide_eq_true rfl), map_append] at ids
  rw [← ids, countP_eq_length_filter, ← length_map, getElem?_append_right le_rfl,
    Nat.sub_self]
  rfl

/-- No node is left out between one pair and the next. -/
theorem next_node {n : ℕ}
    (covered : ∀ v, v < n ↔ ∃ shard ∈ shards, v ∈ shard.ids)
    (split : done ++ (node, i) :: rest = nodeShard (shards.map ids)) {current : ℕ}
    (passed : ∀ pair ∈ done, pair.1 ≤ current)
    (reached : done = [] ∧ current = 0 ∨ ∃ shard, (current, shard) ∈ done) :
    node = current ∨ node = current + 1 := by
  have sorted := nodeShard_sorted (shards.map ids)
  rw [← split, pairwise_append] at sorted
  have later : ∀ pair ∈ rest, node ≤ pair.1 := by
    intro pair mem
    have ordered := (pairwise_cons.mp sorted.2.1).1 pair mem
    rcases Prod.Lex.toLex_le_toLex.mp ordered with less | ⟨same, -⟩
    · exact less.le
    · exact same.le
  -- whatever node there is has been passed, or comes with this pair or after it
  have before : ∀ v < n, v ≤ current ∨ node ≤ v := by
    intro v bound
    obtain ⟨shard, mem, holds⟩ := (covered v).mp bound
    obtain ⟨j, here⟩ := mem_iff_getElem?.mp mem
    have pair := (shard_of_mem_nodeShard few).mpr ⟨shard, here, holds⟩
    rw [← split, mem_append, mem_cons] at pair
    rcases pair with early | same | late
    · exact .inl (passed _ early)
    · cases same
      exact .inr le_rfl
    · exact .inr (later _ late)
  have node_lt : node < n := by
    have mem : (node, i) ∈ nodeShard (shards.map ids) := by
      rw [← split]
      exact mem_append_right _ mem_cons_self
    obtain ⟨shard, here, holds⟩ := (shard_of_mem_nodeShard few).mp mem
    exact (covered node).mpr ⟨shard, mem_of_getElem? here, holds⟩
  have least : current ≤ node := by
    rcases reached with ⟨-, rfl⟩ | ⟨shard, mem⟩
    · exact zero_le _
    · have ordered := sorted.2.2 _ mem _ mem_cons_self
      rcases Prod.Lex.toLex_le_toLex.mp ordered with less | ⟨same, -⟩
      · exact less.le
      · exact same.le
  by_contra neither
  rcases before (current + 1) (by omega) with early | late
  · omega
  · omega

end Pairs

/-! ## The neighbors of the current node -/

/-- The flags are set for the collected neighbors. -/
structure Marks (n : ℕ) (nbrSet : List Bool) (nbrs : List ℕ) : Prop where
  length : nbrSet.length = n
  nodup : nbrs.Nodup
  flag : ∀ nbr, nbrSet[nbr]? = some true ↔ nbr ∈ nbrs

namespace Marks

variable {n : ℕ} {nbrSet : List Bool} {nbrs : List ℕ}

theorem replicate (n : ℕ) : Marks n (replicate n false) [] :=
  ⟨length_replicate, nodup_nil, fun nbr => by simp [getElem?_replicate]⟩

variable (marks : Marks n nbrSet nbrs)
include marks

theorem lt {nbr : ℕ} (mem : nbr ∈ nbrs) : nbr < n := by
  obtain ⟨bound, -⟩ := List.getElem?_eq_some_iff.mp ((marks.flag nbr).mpr mem)
  rwa [marks.length] at bound

theorem length_le : nbrs.length ≤ n := by
  have inside : nbrs ⊆ range n := fun nbr mem => mem_range.mpr (marks.lt mem)
  exact (marks.nodup.subperm inside).length_le.trans_eq length_range

theorem perm {nbrs' : List ℕ} (same : nbrs'.Perm nbrs) :
    Marks n nbrSet nbrs' :=
  ⟨marks.length, same.nodup_iff.mpr marks.nodup, fun nbr => (marks.flag nbr).trans same.mem_iff.symm⟩

theorem addNbr {idMap : List ℕ} {nbr renamed : ℕ}
    (here : idMap[nbr]? = some renamed) (bound : renamed < n) :
    ∃ next, MergeState.addNbr idMap (nbrSet, nbrs) nbr = .ok next ∧ Marks n next.1 next.2 ∧
      ∀ x, x ∈ next.2 ↔ x ∈ nbrs ∨ x = renamed := by
  obtain ⟨flag, flagged⟩ : ∃ flag, nbrSet[renamed]? = some flag :=
    ⟨_, getElem?_eq_getElem (marks.length ▸ bound)⟩
  simp only [MergeState.addNbr, here, flagged]
  cases flag with
  | true =>
    refine ⟨_, rfl, marks, fun x => ?_⟩
    have mem := (marks.flag renamed).mp flagged
    exact ⟨.inl, fun either => either.elim id fun same => same ▸ mem⟩
  | false =>
    have fresh : renamed ∉ nbrs := by
      intro mem
      have := (marks.flag renamed).mpr mem
      rw [flagged] at this
      cases this
    refine ⟨_, rfl, ⟨?_, ?_, fun x => ?_⟩, fun x => ?_⟩
    · rw [length_set, marks.length]
    · exact nodup_append.mpr ⟨marks.nodup, nodup_singleton _, fun a mem b single same =>
        fresh (mem_singleton.mp single ▸ same ▸ mem)⟩
    · rw [mem_append, ← marks.flag]
      by_cases same : renamed = x
      · subst same
        simp [marks.length, bound]
      · simp [same, Ne.symm same]
    · rw [mem_append, mem_singleton]

theorem foldlM_addNbr {idMap : List ℕ} {words : List ℕ}
    (named : ∀ nbr ∈ words, nbr < idMap.length) (bounded : ∀ id ∈ idMap, id < n) :
    ∃ next, words.foldlM (MergeState.addNbr idMap) (nbrSet, nbrs) = .ok next ∧ Marks n next.1 next.2 ∧
      ∀ x, x ∈ next.2 ↔ x ∈ nbrs ∨ x ∈ words.map fun nbr => idMap.getD nbr 0 := by
  refine foldlM_prefix (P := fun done (next : List Bool × List ℕ) => Marks n next.1 next.2 ∧
    ∀ x, x ∈ next.2 ↔ x ∈ nbrs ∨ x ∈ done.map fun nbr => idMap.getD nbr 0) words ?_ ⟨marks, by simp⟩
  rintro done nbr rest ⟨nbrSet', nbrs'⟩ split ⟨marks', collected⟩
  have inside : nbr < idMap.length := named nbr (split ▸ mem_append_right _ mem_cons_self)
  have here : idMap[nbr]? = some (idMap.getD nbr 0) := by
    rw [getD_eq_getElem _ _ inside, getElem?_eq_getElem inside]
  obtain ⟨next, added, marks'', one⟩ := marks'.addNbr here (bounded _ (mem_of_getElem? here))
  refine ⟨next, added, marks'', fun x => ?_⟩
  rw [one, collected, or_assoc]
  simp

omit marks in
theorem getElem?_clear (nbrs : List ℕ) (nbrSet : List Bool) (x : ℕ) :
    (nbrs.foldl (fun nbrSet nbr => nbrSet.set nbr false) nbrSet)[x]? =
      if x ∈ nbrs then nbrSet[x]?.map fun _ => false else nbrSet[x]? := by
  induction nbrs generalizing nbrSet with
  | nil => simp
  | cons nbr nbrs ih =>
    rw [foldl_cons, ih]
    by_cases same : nbr = x
    · subst same
      by_cases inside : nbr < nbrSet.length <;> simp [inside]
    · simp [same, Ne.symm same]

theorem clear :
    Marks n (nbrs.foldl (fun nbrSet nbr => nbrSet.set nbr false) nbrSet) [] := by
  refine ⟨?_, nodup_nil, fun x => ?_⟩
  · rw [← marks.length]
    clear marks
    induction nbrs generalizing nbrSet with
    | nil => rfl
    | cons nbr nbrs ih => rw [foldl_cons, ih, length_set]
  · rw [getElem?_clear]
    by_cases mem : x ∈ nbrs
    · rw [if_pos mem]
      cases nbrSet[x]? <;> simp
    · rw [if_neg mem, marks.flag]
      simp [mem]

end Marks

end DiskAnn.Disk
