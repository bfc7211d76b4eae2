import DiskAnn.Disk.MergeShards

/-! # What the merge writes

The loop over the (node, shard) pairs keeps every reader before the list that the next pair of its shard
stands for. -/

namespace DiskAnn.Disk

open List Shard CachedReader Bytes CachedWriter

/-! ## The loop -/

/-- A selection of at most `maxDegree` elements. -/
structure Selects (maxDegree : ℕ) (union : Finset ℕ) (record : List ℕ) : Prop where
  nodup : record.Nodup
  subset : ∀ nbr ∈ record, nbr ∈ union
  length : record.length = min maxDegree union.card

section Loop

variable (shards : List Shard)

/-- The neighbors that come with a pair. -/
def pairNeighbors (pair : ℕ × ℕ) : List ℕ :=
  match shards[pair.2]? with
  | some shard => shard.neighbors pair.1
  | none => []

/-- The neighbors of a node in the shards it has been read from. -/
def unionOf (done : List (ℕ × ℕ)) (node : ℕ) : Finset ℕ :=
  ((done.filter fun pair => pair.1 = node).flatMap (pairNeighbors shards)).toFinset

/-- The neighbors of a node in all shards. -/
def union (node : ℕ) : Finset ℕ := (shards.flatMap fun shard => shard.neighbors node).toFinset

theorem unionOf_concat_of_ne (done : List (ℕ × ℕ)) {pair : ℕ × ℕ} {node : ℕ} (other : pair.1 ≠ node) :
    unionOf shards (done ++ [pair]) node = unionOf shards done node := by
  simp [unionOf, other]

theorem mem_unionOf_concat (done : List (ℕ × ℕ)) (pair : ℕ × ℕ) (nbr : ℕ) :
    nbr ∈ unionOf shards (done ++ [pair]) pair.1 ↔
      nbr ∈ unionOf shards done pair.1 ∨ nbr ∈ pairNeighbors shards pair := by
  simp [unionOf]

theorem unionOf_eq_empty {done : List (ℕ × ℕ)} {node : ℕ} (absent : ∀ pair ∈ done, pair.1 ≠ node) :
    unionOf shards done node = ∅ := by
  have none : (done.filter fun pair => pair.1 = node) = [] :=
    filter_eq_nil_iff.mpr fun pair mem => by simpa using absent pair mem
  rw [unionOf, none]
  rfl

theorem unionOf_nodeShard (few : shards.length ≤ 2 ^ 32) (node : ℕ) :
    unionOf shards (nodeShard (shards.map ids)) node = union shards node := by
  ext nbr
  rw [unionOf, union, mem_toFinset, mem_toFinset, mem_flatMap, mem_flatMap]
  constructor
  · rintro ⟨⟨node', i⟩, pair, mem⟩
    obtain ⟨listed, same⟩ := mem_filter.mp pair
    obtain rfl : node' = node := of_decide_eq_true same
    obtain ⟨shard, here, -⟩ := (shard_of_mem_nodeShard few).mp listed
    simp only [pairNeighbors, here] at mem
    exact ⟨shard, mem_of_getElem? here, mem⟩
  · rintro ⟨shard, listed, mem⟩
    obtain ⟨i, here⟩ := mem_iff_getElem?.mp listed
    have holds : node ∈ shard.ids := by
      by_contra absent
      rw [neighbors, if_neg absent] at mem
      cases mem
    refine ⟨(node, i), mem_filter.mpr ⟨(shard_of_mem_nodeShard few).mpr ⟨shard, here, holds⟩,
      decide_eq_true rfl⟩, ?_⟩
    simpa only [pairNeighbors, here] using mem

variable {ρ : Type}

/-- What holds between the pairs: `done` have been read, `records` are written behind `header`. -/
structure Merging (maxDegree n : ℕ) (header : List UInt8) (done : List (ℕ × ℕ)) (records : List (List ℕ))
    (s : MergeState ρ) : Prop where
  readers : ∀ (i : ℕ) (shard : Shard), shards[i]? = some shard → ∃ reader : CachedReader, s.readers[i]? = some reader ∧
    reader.Serves ((shard.lists.drop (done.countP fun pair => pair.2 = i)).flatMap adjacencyRecord)
  passed : ∀ pair ∈ done, pair.1 ≤ s.curId
  written : records.length = s.curId
  selects : ∀ (node : ℕ) (record : List ℕ), records[node]? = some record →
    Selects maxDegree (unionOf shards done node) record
  marks : Marks n s.nbrSet s.finalNbrs
  collected : ∀ nbr, nbr ∈ s.finalNbrs ↔ nbr ∈ unionOf shards done s.curId
  writer : s.writer.Holds (header ++ records.flatMap adjacencyRecord)
    (header ++ records.flatMap adjacencyRecord).length
  size : s.mergedIndexSize = u64 (header ++ records.flatMap adjacencyRecord).length

variable {shards} {rng : Rng ρ} {maxDegree n : ℕ} {header : List UInt8} {done rest : List (ℕ × ℕ)}
  {records : List (List ℕ)} {s : MergeState ρ}

/-- The records with the one of the current node. -/
theorem Merging.selects_concat (merging : Merging shards maxDegree n header done records s) {record : List ℕ}
    (selects : Selects maxDegree (unionOf shards done s.curId) record) (node : ℕ) (record' : List ℕ)
    (recorded : (records ++ [record])[node]? = some record') :
    Selects maxDegree (unionOf shards done node) record' := by
  rcases Nat.lt_or_ge node records.length with early | late
  · rw [getElem?_append_left early] at recorded
    exact merging.selects node record' recorded
  · rw [getElem?_append_right late] at recorded
    obtain ⟨single, rfl⟩ := List.getElem?_eq_some_iff.mp recorded
    obtain rfl : node = s.curId := by
      rw [length_singleton] at single
      have := merging.written
      omega
    simpa using selects

/-- The node whose neighbors have been collected gets its record. -/
theorem Merging.writeNode (rng : Rng ρ) (merging : Merging shards maxDegree n header done records s) (small : n < 2 ^ 32) :
    ∃ record, Selects maxDegree (unionOf shards done s.curId) record ∧
      (s.writeNode rng maxDegree).writer.Holds (header ++ (records ++ [record]).flatMap adjacencyRecord)
        (header ++ (records ++ [record]).flatMap adjacencyRecord).length ∧
      (s.writeNode rng maxDegree).mergedIndexSize =
        u64 (header ++ (records ++ [record]).flatMap adjacencyRecord).length ∧
      (s.writeNode rng maxDegree).finalNbrs.Perm s.finalNbrs := by
  have perm := rng.perm s.rng s.finalNbrs
  have marks := merging.marks.perm perm
  have card : (unionOf shards done s.curId).card = (rng.shuffle s.rng s.finalNbrs).1.length := by
    have same : unionOf shards done s.curId = s.finalNbrs.toFinset :=
      Finset.ext fun nbr => (merging.collected nbr).symm.trans mem_toFinset.symm
    rw [same, toFinset_card_of_nodup merging.marks.nodup, perm.length_eq]
  obtain ⟨nnbrs, count⟩ : ∃ nnbrs, nnbrs = min ((rng.shuffle s.rng s.finalNbrs).1.length % 2 ^ 32) maxDegree :=
    ⟨_, rfl⟩
  have exact : nnbrs = min maxDegree (rng.shuffle s.rng s.finalNbrs).1.length := by
    rw [count, Nat.mod_eq_of_lt (marks.length_le.trans_lt small), min_comm]
  have length : ((rng.shuffle s.rng s.finalNbrs).1.take nnbrs).length = nnbrs := by
    rw [length_take]
    omega
  have content : header ++ (records ++ [(rng.shuffle s.rng s.finalNbrs).1.take nnbrs]).flatMap adjacencyRecord =
      header ++ records.flatMap adjacencyRecord ++ toLe 4 nnbrs ++
        ofWords ((rng.shuffle s.rng s.finalNbrs).1.take nnbrs) := by
    rw [flatMap_append, flatMap_singleton, adjacencyRecord, length]
    simp only [append_assoc]
  refine ⟨(rng.shuffle s.rng s.finalNbrs).1.take nnbrs, ⟨?_, ?_, ?_⟩, ?_, ?_, perm⟩
  · exact marks.nodup.sublist (take_sublist _ _)
  · exact fun nbr mem => (merging.collected nbr).mp (perm.mem_iff.mp (mem_of_mem_take mem))
  · rw [length, exact, card]
  · rw [content]
    simp only [MergeState.writeNode, ← count]
    exact write_appends (write_appends merging.writer _) _
  · rw [content]
    simp only [MergeState.writeNode, ← count, merging.size]
    have total : (header ++ records.flatMap adjacencyRecord ++ toLe 4 nnbrs ++
        ofWords ((rng.shuffle s.rng s.finalNbrs).1.take nnbrs)).length =
        (header ++ records.flatMap adjacencyRecord).length + (4 + nnbrs * 4) := by
      simp only [length_append, length_toLe, length_ofWords]
      omega
    rw [total, u64, u64, u64, Nat.mod_add_mod]

/-- The readers after the reader of one shard has gone on. -/
theorem Merging.readers_set (merging : Merging shards maxDegree n header done records s) {node i : ℕ}
    {shard : Shard} (here : shards[i]? = some shard) {reader : CachedReader}
    (serves : reader.Serves
      ((shard.lists.drop ((done.countP fun pair => pair.2 = i) + 1)).flatMap adjacencyRecord))
    (j : ℕ) (shard' : Shard) (there : shards[j]? = some shard') :
    ∃ reader' : CachedReader, (s.readers.set i reader)[j]? = some reader' ∧ reader'.Serves
      ((shard'.lists.drop ((done ++ [(node, i)]).countP fun pair => pair.2 = j)).flatMap adjacencyRecord) := by
  obtain ⟨old, opened, oldServes⟩ := merging.readers j shard' there
  rw [countP_append, countP_singleton, getElem?_set]
  by_cases same : i = j
  · subst same
    obtain rfl : shard = shard' := Option.some.inj (here.symm.trans there)
    obtain ⟨bound, -⟩ := List.getElem?_eq_some_iff.mp opened
    refine ⟨reader, by rw [if_pos rfl, if_pos bound], ?_⟩
    rwa [if_pos (decide_eq_true rfl)]
  · refine ⟨old, by rw [if_neg same, opened], ?_⟩
    rwa [if_neg (by simpa using same)]

/-- The list that a pair stands for is read, and its neighbors are collected. -/
theorem Merging.readNode (few : shards.length ≤ 2 ^ 32) (bounded : ∀ shard ∈ shards, ∀ id ∈ shard.ids, id < n)
    {node i : ℕ} (split : done ++ (node, i) :: rest = nodeShard (shards.map ids))
    (merging : Merging shards maxDegree n header done records s) (current : s.curId = node) :
    ∃ s', s.readNode (shards.map ids) i = .ok s' ∧ s'.curId = node ∧
      Merging shards maxDegree n header (done ++ [(node, i)]) records s' := by
  have mem : (node, i) ∈ nodeShard (shards.map ids) :=
    split ▸ mem_append_right _ mem_cons_self
  obtain ⟨shard, here, -⟩ := (shard_of_mem_nodeShard few).mp mem
  have listed : (shards.map ids)[i]? = some shard.ids := by
    rw [getElem?_map, here]
    rfl
  obtain ⟨reader, opened, serves⟩ := merging.readers i shard here
  -- the reader stands before the list of this node
  have named := getElem?_ids_of_split few split here
  obtain ⟨bound, -⟩ := List.getElem?_eq_some_iff.mp named
  obtain ⟨list, there⟩ : ∃ list, shard.lists[done.countP fun pair => pair.2 = i]? = some list :=
    ⟨_, getElem?_eq_getElem (shard.length_lists ▸ bound)⟩
  have inside := mem_of_getElem? there
  obtain ⟨within, value⟩ := List.getElem?_eq_some_iff.mp there
  rw [drop_eq_getElem_cons within, value, flatMap_cons, adjacencyRecord, append_assoc] at serves
  obtain ⟨reader₁, counted, serves₁⟩ := readU32_serves serves (shard.list_lt list inside)
  have neighbors : pairNeighbors shards (node, i) = list.map fun nbr => shard.ids.getD nbr 0 := by
    simp only [pairNeighbors, here]
    exact neighbors_of_getElem? named there
  have passed : ∀ pair ∈ done ++ [(node, i)], pair.1 ≤ node := by
    intro pair either
    rcases mem_append.mp either with early | single
    · exact current ▸ merging.passed pair early
    · exact (mem_singleton.mp single) ▸ le_rfl
  have selects : ∀ (v : ℕ) (record : List ℕ), records[v]? = some record →
      Selects maxDegree (unionOf shards (done ++ [(node, i)]) v) record := by
    intro v record recorded
    obtain ⟨early, -⟩ := List.getElem?_eq_some_iff.mp recorded
    have other : ((node, i) : ℕ × ℕ).1 ≠ v := by
      rw [merging.written, current] at early
      exact early.ne'
    rw [unionOf_concat_of_ne shards done other]
    exact merging.selects v record recorded
  simp only [MergeState.readNode, opened, listed, counted]
  by_cases empty : list.length = 0
  · obtain rfl : list = [] := length_eq_zero_iff.mp empty
    refine ⟨{ s with readers := s.readers.set i reader₁ }, rfl, current, ?_⟩
    refine ⟨merging.readers_set here serves₁, current ▸ passed, merging.written, selects, merging.marks, fun nbr => ?_,
      merging.writer, merging.size⟩
    rw [current, mem_unionOf_concat shards done (node, i), neighbors, merging.collected, current]
    simp
  · obtain ⟨reader₂, read, serves₂⟩ := read_serves serves₁
    rw [length_ofWords] at read
    have words : toWords list.length (ofWords list) = list :=
      toWords_ofWords fun nbr mem => (shard.nbr_lt list inside nbr mem).trans shard.length_lt
    obtain ⟨next, added, marks, collected⟩ := merging.marks.foldlM_addNbr (shard.nbr_lt list inside)
      (bounded shard (mem_of_getElem? here))
    refine ⟨{ s with readers := s.readers.set i reader₂, nbrSet := next.1, finalNbrs := next.2 }, ?_, current, ?_⟩
    · change (if list.length = 0 then _ else _) = _
      rw [if_neg empty]
      rw [read]
      change ((toWords list.length (ofWords list)).foldlM (MergeState.addNbr shard.ids)
        (s.nbrSet, s.finalNbrs) >>= _) = _
      rw [words, added]
      rfl
    · refine ⟨merging.readers_set here serves₂, current ▸ passed, merging.written, selects, marks, fun nbr => ?_,
        merging.writer, merging.size⟩
      rw [current, mem_unionOf_concat shards done (node, i), neighbors, collected, merging.collected, current]

/-- One pair. -/
theorem Merging.step (few : shards.length ≤ 2 ^ 32) (small : n < 2 ^ 32)
    (covered : ∀ v, v < n ↔ ∃ shard ∈ shards, v ∈ shard.ids) {pair : ℕ × ℕ}
    (split : done ++ pair :: rest = nodeShard (shards.map ids))
    (merging : Merging shards maxDegree n header done records s)
    (reached : done = [] ∧ s.curId = 0 ∨ ∃ shard, (s.curId, shard) ∈ done) :
    ∃ s' records', s.step rng maxDegree (shards.map ids) pair = .ok s' ∧
      Merging shards maxDegree n header (done ++ [pair]) records' s' ∧
      ∃ shard, (s'.curId, shard) ∈ done ++ [pair] := by
  obtain ⟨node, i⟩ := pair
  have bounded : ∀ shard ∈ shards, ∀ id ∈ shard.ids, id < n := fun shard listed id mem =>
    (covered id).mpr ⟨shard, listed, mem⟩
  rcases next_node few covered split merging.passed reached with same | next
  · -- another shard of the same node
    obtain ⟨s', read, current, merging'⟩ := merging.readNode few bounded split same.symm
    refine ⟨s', records, ?_, merging', i, ?_⟩
    · rw [MergeState.step, if_neg (by omega), read]
    · rw [current]
      exact mem_append_right _ (mem_singleton_self _)
  · obtain ⟨record, selects, writer, size, perm⟩ := merging.writeNode rng small
    have absent : ∀ pair ∈ done, pair.1 ≠ node := by
      intro pair mem
      have := merging.passed pair mem
      omega
    have moved : Merging shards maxDegree n header done (records ++ [record])
        ((s.writeNode rng maxDegree).nextNode node) := by
      refine ⟨merging.readers, fun pair mem => ?_, ?_, fun v record' recorded => ?_, (merging.marks.perm perm).clear,
        fun nbr => ?_, writer, size⟩
      · change pair.1 ≤ node
        have := merging.passed pair mem
        omega
      · rw [length_append, merging.written, length_singleton, ← next]
        rfl
      · exact merging.selects_concat selects v record' recorded
      · change nbr ∈ [] ↔ nbr ∈ unionOf shards done node
        rw [unionOf_eq_empty shards absent]
        simp
    obtain ⟨s', read, current, merging'⟩ := moved.readNode few bounded split rfl
    refine ⟨s', records ++ [record], ?_, merging', i, ?_⟩
    · rw [MergeState.step, if_pos (by omega), read]
    · rw [current]
      exact mem_append_right _ (mem_singleton_self _)

end Loop

/-! ## The whole merge -/

section Whole

variable {shards : List Shard}

theorem mapM_readBinU32 (shards : List Shard) :
    (shards.map files).mapM (fun files => readBinU32 files.idMap) = .ok (shards.map ids) := by
  induction shards with
  | nil => rfl
  | cons shard shards ih =>
    rw [map_cons, mapM_cons]
    change (readBinU32 shard.idMapFile >>= _) = _
    rw [shard.readBinU32_idMapFile]
    rw [ih]
    rfl

theorem mapM_openReaders (shards : List Shard) : ∃ readers,
    (shards.map files).mapM (fun files => new files.vamana readWriteBlockSize) = .ok readers ∧
      List.Forall₂ (fun shard reader => Serves reader (shard.vamanaFile)) shards readers := by
  have files : Forall₂ (fun shard files => files = Shard.files shard) shards (shards.map Shard.files) :=
    forall₂_map_right_iff.mpr (forall₂_same.mpr fun _ _ => rfl)
  refine mapM_of_forall₂ files ?_
  rintro shard - rfl
  exact new_serves _ _

/-- What is left of the file of a shard behind its width. -/
def Shard.afterWidth (shard : Shard) : List UInt8 :=
  Bytes.toLe 4 shard.medoid ++ (Bytes.toLe 8 shard.frozen ++ shard.lists.flatMap adjacencyRecord)

theorem readWidth_serves {shard : Shard} {reader : CachedReader} (serves : reader.Serves shard.vamanaFile) :
    ∃ reader', readWidth reader = .ok reader' ∧ reader'.Serves shard.afterWidth := by
  simp only [vamanaFile, vamanaHeader, append_assoc] at serves
  obtain ⟨reader₁, size, serves₁⟩ := read_serves serves
  obtain ⟨reader₂, width, serves₂⟩ := readU32_serves serves₁ shard.width_lt
  rw [length_toLe] at size
  refine ⟨reader₂, ?_, serves₂⟩
  rw [readWidth, size]
  change (reader₁.readU32 >>= _) = _
  rw [width]
  rfl

/-- The medoid of a shard, under its own id. -/
def Shard.globalMedoid (shard : Shard) : ℕ := shard.ids.getD shard.medoid 0

theorem Shard.getElem?_medoid (shard : Shard) : shard.ids[shard.medoid]? = some shard.globalMedoid := by
  rw [globalMedoid, getD_eq_getElem _ _ shard.medoid_lt, getElem?_eq_getElem shard.medoid_lt]

theorem renameMedoids_serves {shards : List Shard} {readers : List CachedReader}
    (all : Forall₂ (fun shard reader => Serves reader (afterWidth shard)) shards readers)
    (writer : CachedWriter) : ∃ readers',
    renameMedoids ((shards.map ids).zip readers) writer = .ok (readers',
      (shards.getLast?.map fun shard => writer.write (toLe 4 shard.globalMedoid)).getD writer) ∧
    List.Forall₂ (fun shard reader => Serves reader (shard.lists.flatMap adjacencyRecord))
      shards readers' := by
  induction all generalizing writer with
  | nil => exact ⟨[], rfl, .nil⟩
  | @cons shard reader shards readers serves all ih =>
    have small : shard.medoid < 2 ^ 32 := shard.medoid_lt.trans shard.length_lt
    obtain ⟨reader₁, medoid, serves₁⟩ := readU32_serves serves small
    obtain ⟨reader₂, frozen, serves₂⟩ := read_serves serves₁
    rw [length_toLe] at frozen
    have unfolded : renameMedoids (((shard :: shards).map ids).zip (reader :: readers)) writer =
        (renameMedoids ((shards.map ids).zip readers)
          (if ((shards.map ids).zip readers).isEmpty then
            writer.write (toLe 4 shard.globalMedoid) else writer)).map
          fun next => (reader₂ :: next.1, next.2) := by
      rw [map_cons, zip_cons_cons, renameMedoids, medoid]
      change (reader₁.read 8 >>= _) = _
      rw [frozen]
      simp only [shard.getElem?_medoid]
      cases renameMedoids _ _ <;> rfl
    rw [unfolded]
    cases all with
    | nil => exact ⟨[reader₂], rfl, .cons serves₂ .nil⟩
    | cons first rest =>
      obtain ⟨readers', renamed, all'⟩ := ih writer
      refine ⟨reader₂ :: readers', ?_, .cons serves₂ all'⟩
      rw [map_cons, zip_cons_cons, isEmpty_cons] at *
      rw [if_neg Bool.false_ne_true, renamed]
      rfl

/-- The number of nodes that the largest id stands for. -/
theorem numNodes_eq {n : ℕ} (pos : 0 < n) (small : n < 2 ^ 32)
    (covered : ∀ v, v < n ↔ ∃ shard ∈ shards, v ∈ shard.ids) :
    ((shards.map ids).flatten.max?.getD 0 + 1) % 2 ^ 32 = n := by
  have mem : ∀ v, v ∈ (shards.map ids).flatten ↔ v < n := by
    intro v
    rw [covered, ← flatMap_def, mem_flatMap]
  have largest : (shards.map ids).flatten.max? = some (n - 1) := by
    refine max?_eq_some_iff.mpr ⟨(mem _).mpr (by omega), fun v inside => ?_⟩
    have := (mem v).mp inside
    omega
  rw [largest]
  change (n - 1 + 1) % 2 ^ 32 = n
  rw [Nat.sub_add_cancel pos, Nat.mod_eq_of_lt small]

/-- A node is its own neighbor only through a self loop. -/
theorem not_mem_union (loops : ∀ shard ∈ shards, ¬ shard.SelfLoop) (node : ℕ) : node ∉ union shards node := by
  rw [union, mem_toFinset, mem_flatMap]
  rintro ⟨shard, listed, mem⟩
  by_cases holds : node ∈ shard.ids
  · obtain ⟨i, here⟩ := mem_iff_getElem?.mp holds
    obtain ⟨bound, value⟩ := List.getElem?_eq_some_iff.mp here
    obtain ⟨list, there⟩ : ∃ list, shard.lists[i]? = some list :=
      ⟨_, getElem?_eq_getElem (shard.length_lists ▸ bound)⟩
    rw [neighbors_of_getElem? here there, mem_map] at mem
    obtain ⟨nbr, inside, renamed⟩ := mem
    have nbr_lt := shard.nbr_lt list (mem_of_getElem? there) nbr inside
    rw [getD_eq_getElem _ _ nbr_lt, ← value] at renamed
    obtain rfl : nbr = i := (List.Nodup.getElem_inj_iff shard.nodup_ids).mp renamed
    exact loops shard listed ⟨nbr, list, there, inside⟩
  · rw [neighbors, if_neg holds] at mem
    cases mem

/-- The state in which the loop over the pairs starts. -/
theorem merging_start {maxDegree n : ℕ} {header : List UInt8} (length : header.length = 24)
    {readers : List CachedReader} {writer : CachedWriter}
    (all : Forall₂ (fun shard reader => Serves reader (shard.lists.flatMap adjacencyRecord))
      shards readers) (holds : writer.Holds header header.length) {ρ : Type} (state : ρ) :
    Merging shards maxDegree n header [] [] (⟨readers, writer, 24, List.replicate n false, [], 0, state⟩ : MergeState ρ) where
  readers i shard here := by
    obtain ⟨bound, value⟩ := List.getElem?_eq_some_iff.mp here
    have same := all.length_eq
    refine ⟨_, getElem?_eq_getElem (same ▸ bound), ?_⟩
    have serves := all.get bound (same ▸ bound)
    rw [get_eq_getElem, get_eq_getElem, value] at serves
    exact serves
  passed _ member := by cases member
  written := rfl
  selects _ _ recorded := by cases recorded
  marks := .replicate n
  collected nbr := by simp [unionOf]
  writer := by rwa [flatMap_nil, append_nil]
  size := by
    rw [flatMap_nil, append_nil, length]
    rfl

/-- The size that is written at the end takes the place of the one at the start. -/
theorem overwrite_vamanaHeader (size size' maxDegree medoid frozen : ℕ) (rest : List UInt8) :
    (vamanaHeader size maxDegree medoid frozen ++ rest).overwrite 0 (toLe 8 size') =
      vamanaHeader size' maxDegree medoid frozen ++ rest := by
  simp only [vamanaHeader, append_assoc]
  rw [overwrite, take_zero, nil_append,
    drop_left' (by rw [length_toLe, length_toLe])]

end Whole

section Merge

variable {ρ : Type} {shards : List Shard}

/-- What is written before the loop, and where the readers stand. -/
theorem mergeShards_eq (rng : Rng ρ) (state : ρ) (maxDegree : ℕ) {n : ℕ} (pos : 0 < n) (small : n < 2 ^ 32)
    (covered : ∀ v, v < n ↔ ∃ shard ∈ shards, v ∈ shard.ids) :
    ∃ (readers : List CachedReader) (writer : CachedWriter) (medoid : ℕ),
      List.Forall₂ (fun shard reader => Serves reader (shard.lists.flatMap adjacencyRecord))
        shards readers ∧
      writer.Holds (vamanaHeader 24 maxDegree medoid 0) (vamanaHeader 24 maxDegree medoid 0).length ∧ medoid < n ∧
      mergeShards rng state (shards.map files) maxDegree =
        ((nodeShard (shards.map ids)).foldlM (MergeState.step rng maxDegree (shards.map ids))
          ⟨readers, writer, 24, List.replicate n false, [], 0, state⟩).map fun s =>
            (((s.writeNode rng maxDegree).writer.reset.write
              (toLe 8 (s.writeNode rng maxDegree).mergedIndexSize)).drop, (s.writeNode rng maxDegree).rng) := by
  obtain ⟨readers₀, opened, all₀⟩ := mapM_openReaders shards
  obtain ⟨readers₁, widths, all₁⟩ := mapM_of_forall₂ all₀ fun shard reader => readWidth_serves
  obtain ⟨writer₀, created, holds₀⟩ := new_holds (by decide : 0 < readWriteBlockSize)
  have holds₁ := write_appends (write_appends holds₀ (toLe 8 24))
    (toLe 4 maxDegree)
  obtain ⟨readers₂, renamed, all₂⟩ := renameMedoids_serves all₁
    ((writer₀.write (toLe 8 24)).write (toLe 4 maxDegree))
  -- there is a last shard, since there is a node
  obtain ⟨first, listed, -⟩ := (covered 0).mp pos
  obtain ⟨last, isLast⟩ : ∃ last, shards.getLast? = some last :=
    ⟨_, getLast?_eq_getLast_of_ne_nil (ne_nil_of_mem listed)⟩
  have medoid_lt : last.globalMedoid < n :=
    (covered _).mpr ⟨last, mem_of_getLast? isLast, mem_of_getElem? last.getElem?_medoid⟩
  rw [isLast] at renamed
  have holds₂ := write_appends (write_appends holds₁ (toLe 4 last.globalMedoid))
    (toLe 8 0)
  refine ⟨readers₂, _, last.globalMedoid, all₂, holds₂, medoid_lt, ?_⟩
  simp only [mergeShards, mapM_readBinU32, opened, created, bind, Except.bind, widths, renamed,
    numNodes_eq pos small covered]
  rfl

/-- After the last pair only the last node has not been written. -/
theorem Merging.last_node {maxDegree n : ℕ} {header : List UInt8} {records : List (List ℕ)} {s : MergeState ρ}
    (few : shards.length ≤ 2 ^ 32) (covered : ∀ v, v < n ↔ ∃ shard ∈ shards, v ∈ shard.ids) (pos : 0 < n)
    (merging : Merging shards maxDegree n header (nodeShard (shards.map ids)) records s)
    (reached : nodeShard (shards.map ids) = [] ∧ s.curId = 0 ∨
      ∃ shard, (s.curId, shard) ∈ nodeShard (shards.map ids)) : s.curId + 1 = n := by
  obtain ⟨shard, listed, mem⟩ := (covered (n - 1)).mp (by omega)
  obtain ⟨i, here⟩ := mem_iff_getElem?.mp listed
  have pair := (shard_of_mem_nodeShard few).mpr ⟨shard, here, mem⟩
  have least := merging.passed _ pair
  rcases reached with ⟨empty, -⟩ | ⟨j, current⟩
  · rw [empty] at pair
    cases pair
  · obtain ⟨shard', here', mem'⟩ := (shard_of_mem_nodeShard few).mp current
    have := (covered s.curId).mpr ⟨shard', mem_of_getElem? here', mem'⟩
    omega

/-- The merged file holds one record for each node, with a selection of the neighbors that the node has
in any shard. -/
theorem mergeShards_merges (rng : Rng ρ) (state : ρ) (shards : List Shard) (maxDegree n : ℕ)
    (positive : 0 < n) (small : n < 2 ^ 32) (few : shards.length ≤ 2 ^ 32)
    (covered : ∀ v, v < n ↔ ∃ shard ∈ shards, v ∈ shard.ids) :
    ∃ (file : List UInt8) (state' : ρ) (medoid : ℕ) (records : List (List ℕ)),
      mergeShards rng state (shards.map Shard.files) maxDegree = .ok (file, state') ∧
      file = vamanaHeader file.length maxDegree medoid 0 ++ records.flatMap adjacencyRecord ∧
      records.length = n ∧ medoid < n ∧
      ∀ node record, records[node]? = some record → Selects maxDegree (union shards node) record ∧
        ((∀ shard ∈ shards, ¬ shard.SelfLoop) → node ∉ record) := by
  obtain ⟨readers, writer, medoid, all, holds, medoid_lt, merged⟩ :=
    mergeShards_eq rng state maxDegree positive small covered
  obtain ⟨header, isHeader⟩ : ∃ header, header = vamanaHeader 24 maxDegree medoid 0 := ⟨_, rfl⟩
  have length : header.length = 24 := isHeader ▸ length_vamanaHeader ..
  rw [← isHeader] at holds
  -- every pair in turn
  obtain ⟨s, looped, records, merging, reached⟩ := foldlM_prefix
    (f := MergeState.step rng maxDegree (shards.map Shard.ids)) (nodeShard (shards.map Shard.ids))
    (P := fun done (s : MergeState ρ) => ∃ records, Merging shards maxDegree n header done records s ∧
      (done = [] ∧ s.curId = 0 ∨ ∃ shard, (s.curId, shard) ∈ done))
    (fun done pair rest s split ⟨records, merging, reached⟩ => by
      obtain ⟨s', records', stepped, merging', reached'⟩ := merging.step few small covered split reached
      exact ⟨s', stepped, records', merging', .inr reached'⟩)
    ⟨[], merging_start length all holds state, .inl ⟨rfl, rfl⟩⟩
  obtain ⟨record, selects, written, size, -⟩ := merging.writeNode rng small
  rw [looped] at merged
  obtain ⟨body, isBody⟩ : ∃ body, body = (records ++ [record]).flatMap adjacencyRecord := ⟨_, rfl⟩
  rw [← isBody] at written size
  -- the size goes to the start of the file
  have rewritten := CachedWriter.write_holds (CachedWriter.reset_holds written)
    (Bytes.toLe 8 (s.writeNode rng maxDegree).mergedIndexSize)
  rw [isHeader, overwrite_vamanaHeader, size] at rewritten
  have bytes : vamanaHeader (u64 (header ++ body).length) maxDegree medoid 0 =
      vamanaHeader (header ++ body).length maxDegree medoid 0 := by
    rw [vamanaHeader, u64, show wordSize = 256 ^ 8 from rfl, Bytes.toLe_mod]
    rfl
  rw [bytes] at rewritten
  refine ⟨vamanaHeader (header ++ body).length maxDegree medoid 0 ++ body, (s.writeNode rng maxDegree).rng, medoid,
    records ++ [record], ?_, ?_, ?_, medoid_lt, ?_⟩
  · rw [merged, ← CachedWriter.drop_eq_content rewritten, ← size]
    rfl
  · have same : (vamanaHeader (header ++ body).length maxDegree medoid 0 ++ body).length = (header ++ body).length := by
      rw [length_append, length_vamanaHeader, length_append, length]
    rw [same, isBody]
  · rw [length_append, merging.written, length_singleton, merging.last_node few covered positive reached]
  · intro node chosen recorded
    have selected : Selects maxDegree (union shards node) chosen := by
      rw [← unionOf_nodeShard shards few]
      exact merging.selects_concat selects node chosen recorded
    exact ⟨selected, fun loops member => not_mem_union loops node (selected.subset node member)⟩

/-- One shard with two nodes, each the neighbor of the other. -/
def twoNodes : Shard where
  ids := [0, 1]
  lists := [[1], [0]]
  size := 40
  width := 1
  medoid := 0
  frozen := 0
  ascending := by decide
  ids_lt := by decide
  length_lt := by decide
  length_lists := rfl
  list_lt := by decide
  nbr_lt := by decide
  medoid_lt := by decide
  width_lt := by decide

/-- A generator that shuffles nothing. -/
def keepOrder : Rng Unit := ⟨fun state list => (list, state), fun _ _ => .rfl⟩

theorem mergeShards_merges_twoNodes :
    ∃ (file : List UInt8) (state' : Unit) (medoid : ℕ) (records : List (List ℕ)),
      mergeShards keepOrder () ([twoNodes].map Shard.files) 4 = .ok (file, state') ∧
      file = vamanaHeader file.length 4 medoid 0 ++ records.flatMap adjacencyRecord ∧
      records.length = 2 ∧ medoid < 2 ∧
      ∀ node record, records[node]? = some record → Selects 4 (union [twoNodes] node) record ∧
        ((∀ shard ∈ [twoNodes], ¬ shard.SelfLoop) → node ∉ record) :=
  mergeShards_merges keepOrder () [twoNodes] 4 2 (by decide) (by decide) (by decide) fun v => by
    have ids : v ∈ twoNodes.ids ↔ v < 2 := by
      change v ∈ [0, 1] ↔ v < 2
      rw [mem_pair]
      omega
    simp [ids]

/-- Without a shard a record is written all the same, the header lacks its medoid, and the size that it
declares is not the one of the file. -/
theorem mergeShards_without_shards :
    (∀ v, v < 0 ↔ ∃ shard ∈ ([] : List Shard), v ∈ shard.ids) ∧
    ∃ file : List UInt8, mergeShards keepOrder () (([] : List Shard).map Shard.files) 4 = .ok (file, ()) ∧
      file.length = 24 ∧ Bytes.ofLe (file.take 8) = 28 := by
  refine ⟨fun v => by simp, ?_⟩
  obtain ⟨writer, created, holds⟩ := CachedWriter.new_holds (by decide : 0 < readWriteBlockSize)
  have written := CachedWriter.write_appends (CachedWriter.write_appends (CachedWriter.write_appends
    (CachedWriter.write_appends (CachedWriter.write_appends holds (Bytes.toLe 8 24)) (Bytes.toLe 4 4))
    (Bytes.toLe 8 0)) (Bytes.toLe 4 0)) (Bytes.ofWords [])
  have file := CachedWriter.drop_eq_content
    (CachedWriter.write_holds (CachedWriter.reset_holds written) (Bytes.toLe 8 28))
  refine ⟨Bytes.toLe 8 28 ++ Bytes.toLe 4 4 ++ Bytes.toLe 8 0 ++ Bytes.toLe 4 0, ?_, rfl, rfl⟩
  simp only [mergeShards, map_nil, mapM_nil, created, bind, Except.bind, pure, Except.pure, nodeShard,
    inverseMap, zipIdx_nil, flatMap_nil, mergeSort_nil]
  exact congrArg (fun bytes => Except.ok (bytes, ())) file

end Merge

end DiskAnn.Disk
