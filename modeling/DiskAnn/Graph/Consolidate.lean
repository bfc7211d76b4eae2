import DiskAnn.Data.Fallible
import DiskAnn.Graph.OccludeList

/-! # Consolidating a vertex

`consolidate_vector` of `index.rs` takes the deleted neighbors out of one adjacency list: the list is
put together anew from the neighbors that are left and those of the deleted ones, and pruned when it
is long. `robust_prune_list` is the pruning of a list of ids.
-/

namespace DiskAnn

open List Function Fallible

/-- What the standard library leaves open: the order a hash set is iterated in, and the order an
unstable sort leaves equal distances in. -/
structure Unspecified (I : Type) where
  iterate : Finset I → List I
  nodup_iterate : ∀ pool, (iterate pool).Nodup
  mem_iterate : ∀ {pool id}, id ∈ iterate pool ↔ id ∈ pool
  /-- `SortedNeighbors::new` -/
  sortedNeighbors : List (Neighbor I) → ℕ → List (Neighbor I)
  length_sortedNeighbors : ∀ pool max, (sortedNeighbors pool max).length = min max pool.length
  sortedNeighbors_perm : ∀ pool max, ∃ rest, (sortedNeighbors pool max ++ rest).Perm pool ∧
    ((∀ neighbor ∈ pool, neighbor.distance.isNan = false) →
      (sortedNeighbors pool max).Pairwise (fun near far => far.distance.lt near.distance = false) ∧
        ∀ near ∈ sortedNeighbors pool max, ∀ far ∈ rest, far.distance.lt near.distance = false)

inductive ElementStatus where
  | valid
  | deleted
  deriving DecidableEq, Repr

inductive ConsolidateKind where
  | complete
  | deleted
  | failedVectorRetrieval
  deriving DecidableEq, Repr

/-- `prune::ListError` -/
inductive ListError (I E : Type) where
  | failedRetrieval (id : I)
  | fatal (e : E)
  deriving DecidableEq, Repr

/-- The accessor of a prune: reads the vectors asked for, as far as they are there. -/
structure PruneAccessor (I V E : Type) where
  fill : List I → Except E (I → Option V)
  computer : V → V → F32

/-- What a call sees of the provider: the status of the ids and which of its requests fail. -/
structure ConsolidateAccess (I V E : Type) extends PruneAccessor I V E where
  statusByInternalId : I → Except E ElementStatus
  pruneAccessor : Except E Unit
  getNeighbors : I → Except E Unit
  setNeighbors : I → List I → Except E Unit

variable {I V E : Type} [DecidableEq I]

namespace PruneAccessor

variable (accessor : PruneAccessor I V E) (config : PruneConfig) (lib : Unspecified I)

/-- The entries of `scratch.pool`: the ids of the list that the view holds, and how far they are. -/
def pool (view : I → Option V) (location : I) (vector : V) (list : List I) : List (Neighbor I) :=
  (list.filter (· ≠ location)).filterMap fun id =>
    (view id).map fun other => ⟨id, accessor.computer vector other⟩

/-- `robust_prune_list`; `scratch` is the list that the scratch space holds before the call. -/
def robustPruneList (fuel : ℕ) (location : I) (list scratch : AdjacencyList I)
    (options : PruneOptions) : Option (Except (ListError I E) (AdjacencyList I)) :=
  if list.edges = [] then some (.ok scratch)
  else
    match accessor.fill (location :: list.edges) with
    | .error e => some (.error (.fatal e))
    | .ok view =>
      match view location with
      | none => some (.error (.failedRetrieval location))
      | some vector =>
        (config.occludeList fuel
          (lib.sortedNeighbors (accessor.pool view location vector list.edges)
            config.maxOcclusionSize)
          view (fun id => decide (id = location)) accessor.computer options).map .ok

end PruneAccessor

namespace ConsolidateAccess

variable (access : ConsolidateAccess I V E) (config : PruneConfig) (lib : Unspecified I)

/-- An id whose status cannot be read counts as deleted. -/
def present (id : I) : Bool :=
  match access.statusByInternalId id with
  | .ok .valid => true
  | .ok .deleted => false
  | .error _ => false

variable (graph : I → List I)

/-- `on_neighbors`: the neighbors that are present and those that are not. -/
def onNeighbors (id : I) : Except E (List I × List I) := do
  access.getNeighbors id
  return ((graph id).filter access.present, (graph id).filter fun i => !access.present i)

/-- The pool of ids for the new list of `v`, before the vertex itself is taken out; none if there is
nothing to do. -/
def candidates (v : I) : Except E (Option (Finset I)) := do
  access.pruneAccessor
  let (undeleted, deletedNeighbors) ← access.onNeighbors graph v
  if deletedNeighbors = [] ∧ undeleted.toFinset.card ≤ config.prunedDegree then return none
  let pool ← deletedNeighbors.foldlM (fun pool id => do
    let (undeleted, _) ← access.onNeighbors graph id
    return pool ∪ undeleted.toFinset) undeleted.toFinset
  return some pool

def commit (v : I) (list : AdjacencyList I) :
    Except E (ConsolidateKind × (I → List I)) := do
  access.setNeighbors v list.edges
  return (.complete, update graph v list.edges)

/-- The list of candidates is written as it is if it is short and pruned otherwise. -/
def replace (fuel : ℕ) (graph : I → List I) (v : I) (neighbors : AdjacencyList I) :
    Option (Except E (ConsolidateKind × (I → List I))) :=
  if neighbors.edges.length < config.prunedDegree then some (access.commit graph v neighbors)
  else
    match access.robustPruneList config lib fuel v neighbors ⟨[]⟩ ⟨false⟩ with
    | none => none
    | some (.error (.failedRetrieval _)) => some (.ok (.failedVectorRetrieval, graph))
    | some (.error (.fatal e)) => some (.error e)
    | some (.ok list) => some (access.commit graph v list)

/-- `consolidate_vector`: what it returns, and the graph it leaves. -/
def consolidateVector (fuel : ℕ) (graph : I → List I) (v : I) :
    Option (Except E (ConsolidateKind × (I → List I))) :=
  match access.statusByInternalId v with
  | .error e => some (.error e)
  | .ok .deleted => some (.ok (.deleted, graph))
  | .ok .valid =>
    match access.candidates config graph v with
    | .error e => some (.error e)
    | .ok none => some (.ok (.complete, graph))
    | .ok (some pool) => access.replace config lib fuel graph v ⟨lib.iterate (pool.erase v)⟩

end ConsolidateAccess

/-! ## The pool -/

namespace Unspecified

variable (lib : Unspecified I)

omit [DecidableEq I] in
theorem sortedNeighbors_subset (pool : List (Neighbor I)) (max : ℕ) :
    lib.sortedNeighbors pool max ⊆ pool := by
  obtain ⟨rest, same, -⟩ := lib.sortedNeighbors_perm pool max
  exact fun nbr mem => same.subset (mem_append_left rest mem)

omit [DecidableEq I] in
theorem nodup_sortedNeighbors {pool : List (Neighbor I)} (distinct : (pool.map (·.id)).Nodup)
    (max : ℕ) : ((lib.sortedNeighbors pool max).map (·.id)).Nodup := by
  obtain ⟨rest, same, -⟩ := lib.sortedNeighbors_perm pool max
  have all := (same.map (·.id)).nodup_iff.mpr distinct
  rw [map_append] at all
  exact all.of_append_left

/-- Ids in ascending order, and a stable sort. -/
def stable : Unspecified ℕ where
  iterate pool := (range (pool.sup id + 1)).filter (· ∈ pool)
  nodup_iterate _ := nodup_range.filter _
  mem_iterate {pool i} := by
    have bound : i ∈ pool → i ≤ pool.sup id := Finset.le_sup (f := id)
    simpa using fun member => Nat.lt_succ_of_le (bound member)
  sortedNeighbors pool max :=
    (pool.insertionSort fun near far => near.distance.key ≤ far.distance.key).take max
  length_sortedNeighbors pool max := by simp
  sortedNeighbors_perm pool max := by
    set sorted := pool.insertionSort fun near far => near.distance.key ≤ far.distance.key
    have ascending : sorted.Pairwise fun near far => far.distance.lt near.distance = false := by
      refine (pairwise_insertionSort _ _).imp fun {near far} ordered => ?_
      simp [F32.lt, ordered]
    rw [← take_append_drop max sorted, pairwise_append] at ascending
    refine ⟨sorted.drop max, ?_, fun _ => ⟨ascending.1, ascending.2.2⟩⟩
    rw [take_append_drop]
    exact perm_insertionSort _ _

end Unspecified

namespace PruneAccessor

variable {accessor : PruneAccessor I V E} {config : PruneConfig} {lib : Unspecified I}
  {view : I → Option V} {location : I} {vector : V} {list : List I}

theorem mem_of_mem_pool {nbr : Neighbor I}
    (mem : nbr ∈ accessor.pool view location vector list) :
    nbr.id ∈ list ∧ nbr.id ≠ location := by
  obtain ⟨id, listed, found⟩ := mem_filterMap.mp mem
  obtain ⟨other, -, rfl⟩ := Option.map_eq_some_iff.mp found
  simpa using mem_filter.mp listed

variable (accessor)

theorem nodup_pool (view : I → Option V) (location : I) (vector : V)
    (distinct : list.Nodup) : ((accessor.pool view location vector list).map (·.id)).Nodup := by
  have ids : (accessor.pool view location vector list).map (·.id) =
      (list.filter (· ≠ location)).filter fun id => (view id).isSome := by
    unfold pool
    generalize list.filter (· ≠ location) = others
    induction others with
    | nil => rfl
    | cons id others ih => cases found : view id <;> simp [found, ih]
  rw [ids]
  exact (distinct.filter _).filter _

/-- What a prune makes of a list without repetitions. -/
structure Pruned (config : PruneConfig) (location : I) (list : List I)
    (neighbors : AdjacencyList I) : Prop where
  distinct : neighbors.edges.Nodup
  subset : neighbors.edges ⊆ list
  no_loop : location ∉ neighbors.edges
  length_le : neighbors.edges.length ≤ config.prunedDegree

theorem robustPruneList_pruned (lib : Unspecified I) (location : I)
    (marked : config.prunedDegree = 1 ∧ config.alpha.isNan = false ∨ config.alpha.lt .max = true)
    (distinct : list.Nodup) (nonempty : list ≠ [])
    (scratch : AdjacencyList I) (options : PruneOptions) :
    ∃ enough, ∀ fuel ≥ enough, ∃ res,
      accessor.robustPruneList config lib fuel location ⟨list⟩ scratch options = some res ∧
        ∀ neighbors, res = .ok neighbors → Pruned config location list neighbors := by
  simp only [robustPruneList, if_neg nonempty]
  cases filled : accessor.fill (location :: list) with
  | error e => exact ⟨0, fun _ _ => ⟨.error (.fatal e), rfl, nofun⟩⟩
  | ok view =>
    cases source : view location with
    | none => exact ⟨0, fun _ _ => ⟨.error (.failedRetrieval location), by simp [source], nofun⟩⟩
    | some vector =>
      set sorted := lib.sortedNeighbors (accessor.pool view location vector list)
        config.maxOcclusionSize with sort
      have small : sorted.length ≤ 65535 := by
        rw [lib.length_sortedNeighbors]
        exact (min_le_left _ _).trans config.maxOcclusionSize_le
      obtain ⟨enough, ran⟩ : config.Prunes sorted view (fun id => decide (id = location))
          accessor.computer options := by
        have ids := lib.nodup_sortedNeighbors (accessor.nodup_pool view location vector distinct)
          config.maxOcclusionSize
        rcases marked with ⟨single, number⟩ | below
        · exact PruneConfig.prunes_of_marked small ⟨number, .inr single.le⟩ (.inr single.le)
        · exact PruneConfig.prunes_of_marked small (Prune.marked_of_lt below) (.inl ids)
      refine ⟨enough, fun fuel many => ?_⟩
      obtain ⟨neighbors, returned, tidy⟩ := ran fuel many
      refine ⟨.ok neighbors, by simp [source, ← sort, returned], ?_⟩
      rintro _ ⟨⟩
      have origin : ∀ id ∈ neighbors.edges, id ∈ list ∧ id ≠ location := by
        intro id mem
        obtain ⟨-, nbr, listed, rfl⟩ := tidy.from_pool id mem
        exact mem_of_mem_pool (lib.sortedNeighbors_subset _ _ listed)
      exact ⟨tidy.distinct, fun id mem => (origin id mem).1,
        fun loop => (origin location loop).2 rfl, tidy.length_le⟩

end PruneAccessor

namespace ConsolidateAccess

variable {access : ConsolidateAccess I V E} {config : PruneConfig} {lib : Unspecified I}
  {graph : I → List I} {v : I}

/-- The ids the new list of `v` may be made of. -/
def Eligible (access : ConsolidateAccess I V E) (graph : I → List I) (v x : I) : Prop :=
  access.present x = true ∧
    (x ∈ graph v ∨ ∃ u ∈ graph v, access.present u = false ∧ x ∈ graph u)

theorem eligible_of_foldlM {deleted : List I}
    (gone : ∀ u ∈ deleted, u ∈ graph v ∧ access.present u = false) {start pool : Finset I}
    (eligible : ∀ x ∈ start, access.Eligible graph v x)
    (gathered : deleted.foldlM (fun pool id => do
      let (undeleted, _) ← access.onNeighbors graph id
      return pool ∪ undeleted.toFinset) start = .ok pool) :
    ∀ x ∈ pool, access.Eligible graph v x := by
  induction deleted generalizing start with
  | nil =>
    cases gathered
    exact eligible
  | cons u deleted ih =>
    obtain ⟨listed, absent⟩ := gone u mem_cons_self
    rw [foldlM_cons] at gathered
    obtain ⟨_, added, gathered⟩ := except_bind_eq_ok.mp gathered
    obtain ⟨_, read, ⟨⟩⟩ := except_bind_eq_ok.mp added
    obtain ⟨_, -, ⟨⟩⟩ := except_bind_eq_ok.mp read
    refine ih (fun w mem => gone w (mem_cons_of_mem u mem)) ?_ gathered
    intro x mem
    rcases Finset.mem_union.mp mem with earlier | added
    · exact eligible x earlier
    · rw [mem_toFinset, mem_filter] at added
      exact ⟨added.2, .inr ⟨u, listed, absent, added.1⟩⟩

/-- The list of `v` is rewritten. -/
def Rewrites (access : ConsolidateAccess I V E) (config : PruneConfig) (graph : I → List I)
    (v : I) : Prop :=
  (∃ u ∈ graph v, access.present u = false) ∨
    config.prunedDegree < ((graph v).filter access.present).toFinset.card

omit [DecidableEq I] in
theorem filter_absent_eq_nil :
    (graph v).filter (fun i => !access.present i) = [] ↔ ¬ ∃ u ∈ graph v, access.present u = false := by
  simp

theorem candidates_spec {found : Option (Finset I)}
    (gathered : access.candidates config graph v = .ok found) :
    (access.Rewrites config graph v ∧ ∃ pool, found = some pool ∧
      ∀ x ∈ pool, access.Eligible graph v x) ∨
    (¬ access.Rewrites config graph v ∧ found = none) := by
  unfold candidates at gathered
  obtain ⟨_, -, gathered⟩ := except_bind_eq_ok.mp gathered
  obtain ⟨_, read, gathered⟩ := except_bind_eq_ok.mp gathered
  obtain ⟨_, -, ⟨⟩⟩ := except_bind_eq_ok.mp read
  dsimp only at gathered
  split at gathered
  · rename_i quiet
    refine .inr ⟨?_, (Except.ok.inj gathered).symm⟩
    rintro (deleted | long)
    · exact filter_absent_eq_nil.mp quiet.1 deleted
    · exact absurd quiet.2 (not_le.mpr long)
  · rename_i busy
    obtain ⟨pool, folded, gathered⟩ := except_bind_eq_ok.mp gathered
    refine .inl ⟨?_, pool, (Except.ok.inj gathered).symm, ?_⟩
    · by_contra quiet
      refine busy ⟨filter_absent_eq_nil.mpr fun deleted => quiet (.inl deleted), ?_⟩
      exact not_lt.mp fun long => quiet (.inr long)
    · refine eligible_of_foldlM (fun u mem => ?_) (fun x mem => ?_) folded
      · simpa using mem
      · rw [mem_toFinset, mem_filter] at mem
        exact ⟨mem.2, .inl mem.1⟩

/-! ## The call -/

/-- A list that may stand in for that of `v`. -/
structure Consolidated (access : ConsolidateAccess I V E) (config : PruneConfig)
    (graph : I → List I) (v : I) (list : List I) : Prop where
  distinct : list.Nodup
  no_loop : v ∉ list
  eligible : ∀ x ∈ list, access.Eligible graph v x
  length_le : list.length ≤ config.prunedDegree

/-- What a call may return. -/
structure Returns (access : ConsolidateAccess I V E) (config : PruneConfig) (graph : I → List I)
    (v : I) (kind : ConsolidateKind) (after : I → List I) : Prop where
  others : ∀ u ≠ v, after u = graph u
  incomplete : kind ≠ .complete → after = graph
  rewritten : kind = .complete → access.Rewrites config graph v →
    access.Consolidated config graph v (after v)
  quiet : ¬ access.Rewrites config graph v → after = graph

theorem returns_of_unchanged {kind : ConsolidateKind}
    (settled : kind = .complete → ¬ access.Rewrites config graph v) :
    access.Returns config graph v kind graph where
  others _ _ := rfl
  incomplete _ := rfl
  rewritten complete rewrites := absurd rewrites (settled complete)
  quiet _ := rfl

theorem returns_of_commit (rewrites : access.Rewrites config graph v) {list : AdjacencyList I}
    (consolidated : access.Consolidated config graph v list.edges) {kind : ConsolidateKind}
    {after : I → List I} (written : access.commit graph v list = .ok (kind, after)) :
    access.Returns config graph v kind after := by
  unfold commit at written
  obtain ⟨_, -, ⟨rfl, rfl⟩⟩ := except_bind_eq_ok.mp written
  refine ⟨fun u other => update_of_ne other _ _, nofun, fun _ _ => ?_,
    fun quiet => absurd rewrites quiet⟩
  rwa [update_self]

theorem replace_returns (marked : config.prunedDegree = 1 ∧ config.alpha.isNan = false ∨
      config.alpha.lt .max = true) (rewrites : access.Rewrites config graph v) {list : List I}
    (distinct : list.Nodup) (no_loop : v ∉ list)
    (eligible : ∀ x ∈ list, access.Eligible graph v x) :
    ∃ enough, ∀ fuel ≥ enough, ∃ res,
      access.replace config lib fuel graph v ⟨list⟩ = some res ∧
        ∀ kind after, res = .ok (kind, after) → access.Returns config graph v kind after := by
  by_cases short : list.length < config.prunedDegree
  · refine ⟨0, fun fuel _ => ⟨access.commit graph v ⟨list⟩, if_pos short, fun kind after => ?_⟩⟩
    exact returns_of_commit rewrites ⟨distinct, no_loop, eligible, short.le⟩
  · have nonempty : list ≠ [] := by
      rintro rfl
      exact short config.prunedDegree_pos
    obtain ⟨enough, ran⟩ := access.robustPruneList_pruned lib v marked distinct nonempty
      ⟨[]⟩ ⟨false⟩
    refine ⟨enough, fun fuel many => ?_⟩
    obtain ⟨res, returned, pruned⟩ := ran fuel many
    have long : ¬ (⟨list⟩ : AdjacencyList I).edges.length < config.prunedDegree := short
    unfold replace
    rw [if_neg long, returned]
    rcases res with (_ | e) | neighbors
    · refine ⟨_, rfl, ?_⟩
      rintro _ _ ⟨⟩
      exact returns_of_unchanged nofun
    · exact ⟨_, rfl, nofun⟩
    · refine ⟨_, rfl, fun kind after => ?_⟩
      have kept := pruned neighbors rfl
      exact returns_of_commit rewrites ⟨kept.distinct, kept.no_loop,
        fun x mem => eligible x (kept.subset mem), kept.length_le⟩

/-- A call ends, and what it returns is in order: with a factor below the mark, or one neighbor to
keep, a list is only rewritten when a neighbor is deleted or there are too many, and then it is made of
the undeleted neighbors and those of the deleted ones. -/
theorem consolidateVector_returns (access : ConsolidateAccess I V E) (config : PruneConfig)
    (lib : Unspecified I) (graph : I → List I) (v : I)
    (marked : config.prunedDegree = 1 ∧ config.alpha.isNan = false ∨
      config.alpha.lt .max = true) :
    ∃ enough, ∀ fuel ≥ enough, ∃ result,
      access.consolidateVector config lib fuel graph v = some result ∧
        ∀ kind after, result = .ok (kind, after) → access.Returns config graph v kind after := by
  unfold consolidateVector
  cases access.statusByInternalId v with
  | error e => exact ⟨0, fun _ _ => ⟨.error e, rfl, nofun⟩⟩
  | ok status =>
    cases status with
    | deleted =>
      refine ⟨0, fun _ _ => ⟨_, rfl, ?_⟩⟩
      rintro _ _ ⟨⟩
      exact returns_of_unchanged nofun
    | valid =>
      cases gathered : access.candidates config graph v with
      | error e => exact ⟨0, fun _ _ => ⟨.error e, rfl, nofun⟩⟩
      | ok found =>
        rcases candidates_spec gathered with ⟨rewrites, pool, rfl, eligible⟩ | ⟨quiet, rfl⟩
        · exact replace_returns marked rewrites (lib.nodup_iterate _)
            (fun loop => Finset.notMem_erase v pool (lib.mem_iterate.mp loop))
            fun x member => eligible x (Finset.mem_of_mem_erase (lib.mem_iterate.mp member))
        · refine ⟨0, fun _ _ => ⟨_, rfl, ?_⟩⟩
          rintro _ _ ⟨⟩
          exact returns_of_unchanged fun _ => quiet

/-- A provider of vectors at distance zero, none of them deleted, that fails nothing. -/
def steady : ConsolidateAccess ℕ Unit Empty where
  fill _ := .ok fun _ => some ()
  computer _ _ := .zero
  statusByInternalId _ := .ok .valid
  pruneAccessor := .ok ()
  getNeighbors _ := .ok ()
  setNeighbors _ _ := .ok ()

theorem consolidateVector_returns_steady :
    ∃ enough, ∀ fuel ≥ enough, ∃ result,
      steady.consolidateVector (PruneConfig.bare 1 (by decide) .one) .stable fuel (fun _ => [1, 2]) 0 =
        some result ∧
      ∀ kind after, result = .ok (kind, after) →
        steady.Returns (PruneConfig.bare 1 (by decide) .one) (fun _ => [1, 2]) 0 kind after :=
  consolidateVector_returns steady (PruneConfig.bare 1 (by decide) .one) .stable (fun _ => [1, 2]) 0
    (.inl ⟨rfl, by decide⟩)

/-- Two neighbors, neither of them deleted, of which one is dropped. -/
theorem consolidateVector_drops_undeleted :
    (∀ u ∈ [1, 2], steady.present u = true) ∧
      (steady.consolidateVector (PruneConfig.bare 1 (by decide) .one) .stable 3 (fun _ => [1, 2])
        0).map (·.map fun returned => (returned.1, returned.2 0)) = some (.ok (.complete, [1])) := by
  decide +kernel

end ConsolidateAccess

end DiskAnn
