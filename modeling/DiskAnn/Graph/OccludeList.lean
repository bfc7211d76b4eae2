import DiskAnn.Graph.Backedge
import DiskAnn.Graph.PruneSafety

/-! # Pruning a pool of candidates

`occlude_list` of `index.rs` prunes a pool of neighbors, sorted by distance, to an adjacency list. It
works on positions of the pool and turns them into ids at the end, past the check of `AdjacencyList`
for ids that occur twice. No result (`none`) means a failed assertion, an index out of bounds or a loop
out of fuel.
-/

namespace DiskAnn

open List Prune Option

/-- What pruning reads of the configuration of an index. -/
structure PruneConfig where
  prunedDegree : ℕ
  alpha : F32
  pruneKind : PruneKind
  maxOcclusionSize : ℕ
  saturateAfterPrune : Bool
  prunedDegree_pos : 0 < prunedDegree
  maxOcclusionSize_pos : 0 < maxOcclusionSize
  maxOcclusionSize_le : maxOcclusionSize ≤ 65535

/-- `prune::Options` -/
structure PruneOptions where
  forceSaturate : Bool

variable {I V : Type} [DecidableEq I]

/-- The greedy refill of a list from the pool, up to `degree` ids. -/
def saturate (degree : ℕ) (exclude : I → Bool) (pool : List (Neighbor I))
    (neighbors : AdjacencyList I) : AdjacencyList I :=
  pool.foldl (fun neighbors neighbor =>
    if degree ≤ neighbors.edges.length then neighbors
    else if exclude neighbor.id then neighbors
    else (neighbors.push neighbor.id).1) neighbors

namespace PruneConfig

variable (config : PruneConfig)

/-- The call of `robust_prune`. -/
def prune (pool : List (Neighbor I)) (map : I → Option V) (exclude : I → Bool)
    (computer : V → V → F32) : Prune V where
  candidates := pool.map fun neighbor =>
    ⟨if exclude neighbor.id then none else map neighbor.id, neighbor.distance⟩
  degree := config.prunedDegree
  alpha := config.alpha
  pruneKind := config.pruneKind
  computeDistance := computer

def saturates (options : PruneOptions) : Bool :=
  options.forceSaturate || (config.saturateAfterPrune && F32.one.lt config.alpha)

/-- `occlude_list`; the scratch list it is given is overwritten. -/
def occludeList (fuel : ℕ) (pool : List (Neighbor I)) (map : I → Option V) (exclude : I → Bool)
    (computer : V → V → F32) (options : PruneOptions) : Option (AdjacencyList I) :=
  if 65535 < pool.length then none
  else if pool.isEmpty then some ⟨[]⟩
  else do
    let p := config.prune pool map exclude computer
    let s ← p.robustPrune Prune.wrapping fuel p.freshStates
    let edges ← s.selected.mapM fun position => pool[position]?.map (·.id)
    if config.saturates options then
      some (saturate config.prunedDegree exclude pool ⟨edges⟩)
    else some ⟨edges⟩

/-- What the callers of `occlude_list` take its result for. -/
structure Tidy (pool : List (Neighbor I)) (exclude : I → Bool) (options : PruneOptions)
    (neighbors : AdjacencyList I) : Prop where
  distinct : neighbors.edges.Nodup
  from_pool : ∀ id ∈ neighbors.edges, exclude id = false ∧ ∃ neighbor ∈ pool, neighbor.id = id
  length_le : neighbors.edges.length ≤ config.prunedDegree
  saturated : config.saturates options = true → neighbors.edges.length = config.prunedDegree ∨
    ∀ neighbor ∈ pool, exclude neighbor.id = false → neighbor.id ∈ neighbors.edges

end PruneConfig

/-! ## Saturation -/

section Saturate

variable {degree : ℕ} {exclude : I → Bool} {pool : List (Neighbor I)} {neighbors : AdjacencyList I}

theorem AdjacencyList.mem_push {list : AdjacencyList I} {i j : I} :
    j ∈ (list.push i).1.edges ↔ j ∈ list.edges ∨ j = i := by
  unfold push
  split
  · constructor
    · exact .inl
    · rintro (mem | rfl) <;> assumption
  · simp

theorem AdjacencyList.nodup_push {list : AdjacencyList I} (distinct : list.edges.Nodup) (i : I) :
    (list.push i).1.edges.Nodup := by
  unfold push
  split
  · exact distinct
  · exact distinct.append (nodup_singleton i) (disjoint_singleton.mpr ‹_›)

theorem AdjacencyList.length_push_le (list : AdjacencyList I) (i : I) :
    (list.push i).1.edges.length ≤ list.edges.length + 1 := by
  unfold push
  split <;> simp

theorem nodup_saturate (distinct : neighbors.edges.Nodup) :
    (saturate degree exclude pool neighbors).edges.Nodup := by
  refine foldlRecOn (motive := fun (l : AdjacencyList I) => l.edges.Nodup) _ _ distinct
    fun l kept nbr _ => ?_
  split
  · exact kept
  · split
    · exact kept
    · exact l.nodup_push kept nbr.id

theorem length_saturate (short : neighbors.edges.length ≤ degree) :
    (saturate degree exclude pool neighbors).edges.length ≤ degree := by
  refine foldlRecOn (motive := fun (l : AdjacencyList I) => l.edges.length ≤ degree) _ _ short
    fun l kept nbr _ => ?_
  split
  · exact kept
  · split
    · exact kept
    · have := l.length_push_le nbr.id
      omega

theorem mem_of_mem_saturate {id : I}
    (mem : id ∈ (saturate degree exclude pool neighbors).edges) :
    id ∈ neighbors.edges ∨ (exclude id = false ∧ ∃ nbr ∈ pool, nbr.id = id) := by
  revert mem
  refine foldlRecOn (motive := fun (l : AdjacencyList I) => id ∈ l.edges →
    id ∈ neighbors.edges ∨ (exclude id = false ∧ ∃ nbr ∈ pool, nbr.id = id)) _ _ .inl
    fun l kept nbr listed => ?_
  split
  · exact kept
  · split
    · exact kept
    · intro mem
      rcases AdjacencyList.mem_push.mp mem with earlier | rfl
      · exact kept earlier
      · exact .inr ⟨eq_false_of_ne_true ‹_›, nbr, listed, rfl⟩

theorem subset_saturate : neighbors.edges ⊆ (saturate degree exclude pool neighbors).edges := by
  refine foldlRecOn (motive := fun (l : AdjacencyList I) => neighbors.edges ⊆ l.edges) _ _
    (Subset.refl _) fun l kept nbr _ => ?_
  split
  · exact kept
  · split
    · exact kept
    · exact fun id mem => AdjacencyList.mem_push.mpr (.inl (kept mem))

theorem saturate_full (full : degree ≤ neighbors.edges.length) :
    saturate degree exclude pool neighbors = neighbors :=
  foldlRecOn (motive := fun l => l = neighbors) _ _ rfl fun _ same _ _ => by
    rw [same]
    exact if_pos full

/-- A list that is not full holds every id that may be added. -/
theorem saturate_complete (room : (saturate degree exclude pool neighbors).edges.length < degree) :
    ∀ nbr ∈ pool, exclude nbr.id = false →
      nbr.id ∈ (saturate degree exclude pool neighbors).edges := by
  induction pool generalizing neighbors with
  | nil => exact fun _ mem => nomatch mem
  | cons first pool ih =>
    have step : saturate degree exclude (first :: pool) neighbors =
        saturate degree exclude pool (if degree ≤ neighbors.edges.length then neighbors
          else if exclude first.id then neighbors else (neighbors.push first.id).1) := rfl
    rw [step] at room ⊢
    intro nbr listed admitted
    rcases mem_cons.mp listed with rfl | listed
    · refine subset_saturate ?_
      split at room
      · rw [saturate_full ‹_›] at room
        omega
      · rw [if_neg ‹_›, if_neg (by simp [admitted])]
        exact AdjacencyList.mem_push.mpr (.inr rfl)
    · exact ih room nbr listed admitted

end Saturate

namespace PruneConfig

variable {config : PruneConfig} {pool : List (Neighbor I)} {map : I → Option V} {exclude : I → Bool}
  {computer : V → V → F32} {options : PruneOptions}

/-- The ids at positions of the pool. -/
def idsAt (pool : List (Neighbor I)) (positions : List ℕ) : List I :=
  positions.filterMap fun position => pool[position]?.map (·.id)

omit [DecidableEq I] in
theorem mapM_ids {positions : List ℕ} (inside : ∀ pos ∈ positions, pos < pool.length) :
    positions.mapM (fun pos => pool[pos]?.map (·.id)) = some (idsAt pool positions) := by
  induction positions with
  | nil => rfl
  | cons pos positions ih =>
    have read := getElem?_eq_getElem (inside pos mem_cons_self)
    rw [mapM_cons, ih fun other mem => inside other (mem_cons_of_mem _ mem)]
    simp [idsAt, read]

omit [DecidableEq I] in
theorem length_idsAt {positions : List ℕ}
    (inside : ∀ pos ∈ positions, pos < pool.length) :
    (idsAt pool positions).length = positions.length := by
  induction positions with
  | nil => rfl
  | cons pos positions ih =>
    have read := getElem?_eq_getElem (inside pos mem_cons_self)
    have others := ih fun other mem => inside other (mem_cons_of_mem _ mem)
    simp only [idsAt] at others ⊢
    simp [read, others]

omit [DecidableEq I] in
theorem mem_idsAt {positions : List ℕ} {id : I} :
    id ∈ idsAt pool positions ↔
      ∃ pos ∈ positions, ∃ nbr, pool[pos]? = some nbr ∧ nbr.id = id := by
  simp [idsAt]

omit [DecidableEq I] in
theorem nodup_idsAt {positions : List ℕ} (distinct : positions.Nodup)
    (ids : (pool.map (·.id)).Nodup) : (idsAt pool positions).Nodup := by
  refine distinct.filterMap fun j k id first second => ?_
  rw [← getElem?_map] at first second
  obtain ⟨inside, -⟩ := List.getElem?_eq_some_iff.mp first
  exact (getElem?_inj inside ids).mp (first.trans second.symm)

/-- What `occlude_list` returns when the run of `robust_prune` ends. -/
theorem occludeList_eq {fuel : ℕ} {s : Progress} (small : pool.length ≤ 65535)
    (nonempty : pool ≠ [])
    (ran : (config.prune pool map exclude computer).robustPrune wrapping fuel
      (config.prune pool map exclude computer).freshStates = some s)
    (inside : ∀ pos ∈ s.selected, pos < pool.length) :
    config.occludeList fuel pool map exclude computer options =
      some (if config.saturates options then
          saturate config.prunedDegree exclude pool ⟨idsAt pool s.selected⟩
        else ⟨idsAt pool s.selected⟩) := by
  unfold occludeList
  rw [if_neg (by omega), if_neg (by simpa using nonempty)]
  simp only [ran, bind_eq_bind, bind_some, mapM_ids inside]
  split <;> rfl

/-- The result is tidy if the ids that were selected are. -/
theorem tidy_of_ids {ids : List I} (distinct : ids.Nodup)
    (from_pool : ∀ id ∈ ids, exclude id = false ∧ ∃ nbr ∈ pool, nbr.id = id)
    (short : ids.length ≤ config.prunedDegree) :
    config.Tidy pool exclude options (if config.saturates options then
      saturate config.prunedDegree exclude pool ⟨ids⟩ else ⟨ids⟩) := by
  split
  · rename_i saturated
    have bounded : (saturate config.prunedDegree exclude pool ⟨ids⟩).edges.length ≤
        config.prunedDegree := length_saturate short
    refine ⟨nodup_saturate distinct, fun id mem => ?_, bounded, fun _ => ?_⟩
    · exact (mem_of_mem_saturate mem).elim (from_pool id) fun found => found
    · rcases bounded.eq_or_lt with full | room
      · exact .inl full
      · exact .inr (saturate_complete room)
  · exact ⟨distinct, from_pool, short, fun saturated => absurd saturated ‹_›⟩

/-- `occlude_list` ends with a tidy list. -/
def Prunes (config : PruneConfig) (pool : List (Neighbor I)) (map : I → Option V)
    (exclude : I → Bool) (computer : V → V → F32) (options : PruneOptions) : Prop :=
  ∃ enough, ∀ fuel ≥ enough, ∃ neighbors,
    config.occludeList fuel pool map exclude computer options = some neighbors ∧
      config.Tidy pool exclude options neighbors

omit [DecidableEq I] in
theorem length_candidates :
    (config.prune pool map exclude computer).candidates.length = pool.length := by
  simp [prune]

omit [DecidableEq I] in
/-- A candidate that is present was not excluded. -/
theorem exclude_of_present {pos : ℕ}
    (present : ∃ candidate ∈ (config.prune pool map exclude computer).candidates[pos]?,
      candidate.id.isSome = true) {nbr : Neighbor I}
    (stored : pool[pos]? = some nbr) : exclude nbr.id = false := by
  obtain ⟨candidate, found, named⟩ := present
  simp only [prune, getElem?_map, stored, map_some, mem_def,
    some.injEq] at found
  cases excluded : exclude nbr.id with
  | false => rfl
  | true => simp [← found, excluded] at named

theorem prunes_of_marked (small : pool.length ≤ 65535)
    (marked : (config.prune pool map exclude computer).Marked)
    (distinct : (pool.map (·.id)).Nodup ∨ config.prunedDegree ≤ 1) :
    config.Prunes pool map exclude computer options := by
  set p := config.prune pool map exclude computer with call
  have length : p.candidates.length = pool.length := length_candidates
  rcases eq_or_ne pool [] with empty | nonempty
  · refine ⟨0, fun fuel _ => ⟨⟨[]⟩, ?_, nodup_nil, nofun, Nat.zero_le _, fun _ => .inr ?_⟩⟩
    · simp [occludeList, empty]
    · simp [empty]
  have sound := sound_prune marked
  have recorded := selected_encode sound.bounded
  have inside : ∀ pos ∈ p.prune.selected, pos < pool.length := fun pos mem =>
    length ▸ sound.inside pos mem
  refine ⟨max (p.candidates.length + 1) (p.lastRound + 1), fun fuel enough => ⟨_,
    occludeList_eq small nonempty (robustPrune_eq (fits_wrapping (by omega)) marked
      (by omega) (by omega)) (by rwa [recorded]), tidy_of_ids ?_ ?_ ?_⟩⟩
  · rw [recorded]
    rcases distinct with ids | single
    · exact nodup_idsAt sound.distinct ids
    · have short : (idsAt pool p.prune.selected).length ≤ 1 := by
        rw [length_idsAt inside]
        exact within_prune.length_le.trans single
      match idsAt pool p.prune.selected, short with
      | [], _ => exact nodup_nil
      | [id], _ => exact nodup_singleton id
  · rw [recorded]
    intro id mem
    obtain ⟨pos, chosen, nbr, stored, rfl⟩ := mem_idsAt.mp mem
    exact ⟨exclude_of_present (within_prune.present pos chosen) stored, nbr,
      mem_of_getElem? stored, rfl⟩
  · rw [recorded, length_idsAt inside]
    exact within_prune.length_le

/-! ## Where it fails -/

/-- A configuration that prunes by the occluding rule and does not refill. -/
def bare (degree : ℕ) (pos : 0 < degree) (alpha : F32) : PruneConfig where
  prunedDegree := degree
  alpha := alpha
  pruneKind := .occluding
  maxOcclusionSize := 1
  saturateAfterPrune := false
  prunedDegree_pos := pos
  maxOcclusionSize_pos := Nat.one_pos
  maxOcclusionSize_le := by decide

section Fails

variable (pool) (degree : ℕ) (pos : 0 < degree) (alpha : F32)

/-- The call for a pool of which the ids `kept` are looked at, all infinitely far apart. -/
abbrev farApart (kept : I → Bool) : Prune Unit :=
  (bare degree pos alpha).prune pool (fun _ => some ()) (fun id => !kept id)
    fun _ _ => .infinity

omit [DecidableEq I] in
theorem farApart_unoccluded (kept : I → Bool) : (farApart pool degree pos alpha kept).Unoccluded :=
  ⟨rfl, fun _ _ => rfl⟩

variable {pool degree alpha}

/-- A list of one id is as long as the run of `robust_prune` made it. -/
theorem found_le_one {kept : I → Bool} {x : I} (only : ∀ id, kept id = true → id = x)
    (prunes : (bare degree pos alpha).Prunes pool (fun _ => some ()) (fun id => !kept id)
      (fun _ _ => F32.infinity) ⟨false⟩) (nonempty : pool ≠ []) :
    ∃ enough, ∀ fuel ≥ enough, ∃ s, (farApart pool degree pos alpha kept).robustPrune
      wrapping fuel (farApart pool degree pos alpha kept).freshStates = some s ∧
        s.selected.length ≤ 1 := by
  obtain ⟨enough, ran⟩ := prunes
  refine ⟨enough, fun fuel many => ?_⟩
  obtain ⟨neighbors, returned, tidy⟩ := ran fuel many
  unfold occludeList at returned
  split at returned
  · cases returned
  · rw [if_neg (by simpa using nonempty)] at returned
    simp only [bind_eq_bind, bind_eq_some_iff] at returned
    obtain ⟨s, ended, edges, named, listed⟩ := returned
    refine ⟨s, ended, ?_⟩
    obtain rfl : neighbors = ⟨edges⟩ := (some.inj listed).symm
    have all : edges ⊆ [x] := fun id mem =>
      mem_singleton.mpr (only id (by simpa using (tidy.from_pool id mem).1))
    rw [← length_of_mapM_eq_some named]
    exact (tidy.distinct.subperm all).length_le

variable (small : pool.length ≤ 65535)
include small

/-- A factor that reaches the mark selects the first candidate twice. -/
theorem not_prunes_of_large (several : 2 ≤ degree)
    (large : alpha.lt .max = false) (nonempty : pool ≠ []) :
    ∃ kept : I → Bool, ¬ (bare degree pos alpha).Prunes pool (fun _ => some ())
      (fun id => !kept id) (fun _ _ => F32.infinity) ⟨false⟩ := by
  obtain ⟨first, rest, rfl⟩ := exists_cons_of_ne_nil nonempty
  refine ⟨fun id => decide (id = first.id), fun prunes => ?_⟩
  obtain ⟨enough, ran⟩ := found_le_one pos (fun id same => of_decide_eq_true same) prunes nonempty
  obtain ⟨s, ended, short⟩ := ran (max enough ((first :: rest).length + 1)) (Nat.le_max_left ..)
  have stored : (farApart (first :: rest) degree pos alpha
      fun id => decide (id = first.id)).candidates[0]? = some ⟨some (), first.distance⟩ := by
    simp [prune]
  obtain ⟨B, rfl, repeating, twice⟩ := robustPrune_repeating
    (fits_wrapping (by rwa [length_candidates])) (farApart_unoccluded ..) large several
    stored rfl (by rw [length_candidates]; omega) ended
  rw [selected_encode repeating.bounded] at short
  omega

/-- An id that the pool holds twice may be selected twice. -/
theorem not_prunes_of_repeated (several : 2 ≤ degree)
    (below : alpha.lt .max = true) (repeated : ¬ (pool.map (·.id)).Nodup) :
    ∃ kept : I → Bool, ¬ (bare degree pos alpha).Prunes pool (fun _ => some ())
      (fun id => !kept id) (fun _ _ => F32.infinity) ⟨false⟩ := by
  obtain ⟨j, k, x, before, first, second⟩ : ∃ (j k : ℕ) (x : I), j < k ∧
      (pool.map (·.id))[j]? = some x ∧ (pool.map (·.id))[k]? = some x := by
    rw [nodup_iff_getElem?_ne_getElem?] at repeated
    push Not at repeated
    obtain ⟨j, k, before, inside, same⟩ := repeated
    have second := getElem?_eq_getElem inside
    exact ⟨j, k, _, before, same.trans second, second⟩
  refine ⟨fun id => decide (id = x), fun prunes => ?_⟩
  have nonempty : pool ≠ [] := by
    rintro rfl
    simp at first
  set p := farApart pool degree pos alpha fun id => decide (id = x) with call
  have length : p.candidates.length = pool.length := length_candidates
  have marked : p.Marked := marked_of_lt below
  obtain ⟨enough, ran⟩ := found_le_one pos (fun id same => of_decide_eq_true same) prunes nonempty
  obtain ⟨s, ended, short⟩ := ran (max enough (max (p.candidates.length + 1) (p.lastRound + 1)))
    (Nat.le_max_left ..)
  rw [robustPrune_eq (fits_wrapping (by omega)) marked (by omega)
    (by omega)] at ended
  cases ended
  rw [selected_encode (sound_prune marked).bounded] at short
  -- both positions are selected, since there is room for them
  have chosen : ∀ position, (pool.map (·.id))[position]? = some x →
      position ∈ p.prune.selected := by
    intro position named
    rw [getElem?_map, map_eq_some_iff] at named
    obtain ⟨nbr, stored, rfl⟩ := named
    have present : p.candidates[position]? = some ⟨some (), nbr.distance⟩ := by
      simp [call, prune, stored]
    exact mem_prune_of_unoccluded (farApart_unoccluded ..) (short.trans_lt several)
      present rfl
  have both : [j, k] ⊆ p.prune.selected := by
    simp [chosen j first, chosen k second]
  have := ((nodup_cons.mpr ⟨by simpa using before.ne, nodup_singleton k⟩).subperm
    both).length_le
  simp only [length_cons] at this
  omega

/-- Without a number to end at and without a candidate the rounds go on for ever. -/
theorem not_prunes_of_nan (nan : alpha.isNan = true)
    (nonempty : pool ≠ []) :
    ∃ kept : I → Bool, ¬ (bare degree pos alpha).Prunes pool (fun _ => some ())
      (fun id => !kept id) (fun _ _ => F32.infinity) ⟨false⟩ := by
  refine ⟨fun _ => false, fun prunes => ?_⟩
  obtain ⟨first, rest, rfl⟩ := exists_cons_of_ne_nil nonempty
  set p := farApart (first :: rest) degree pos alpha fun _ => false with call
  have length : p.candidates.length = (first :: rest).length := length_candidates
  have never : ∀ id, (fun _ : I => false) id = true → id = first.id := fun _ absurdity =>
    Bool.noConfusion absurdity
  obtain ⟨enough, ran⟩ := found_le_one pos never prunes nonempty
  obtain ⟨s, ended, -⟩ := ran (max enough (p.candidates.length + 1)) (Nat.le_max_left ..)
  have absent : ∀ candidate ∈ p.candidates, candidate.id = none := by
    intro candidate mem
    obtain ⟨nbr, -, rfl⟩ := mem_map.mp mem
    rfl
  have endless := rounds_of_nan (a := .one)
    (fits_wrapping (by omega)) nan pos absent (Nat.lt_of_succ_le
      (Nat.le_max_right enough (p.candidates.length + 1)))
    (max enough (p.candidates.length + 1)) Selection.sound_init.bounded rfl
  rw [freshStates, ← Selection.states_init] at ended
  cases endless.symm.trans ended

end Fails

end PruneConfig

end DiskAnn
