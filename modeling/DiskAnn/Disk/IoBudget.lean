import DiskAnn.Graph.Search
import DiskAnn.Data.Fallible

/-! # The reads of a disk search

The accessor of a disk search loads the vertices of a beam only as far as `search_io_limit` reaches, and
asks for an early end by comparing the same counter with the limit. The count stays within the limit; but
as it never exceeds it, a search that has used up its reads goes on, and takes candidates out of the queue
without expanding them. -/

namespace DiskAnn.Disk

open Fallible List Search

/-- The vertex provider and the quantized distances behind a search, each of which may fail. -/
structure DiskIndex (I E : Type) where
  medoid : I
  searchIoLimit : ℕ
  ensureVertexLoaded : List I → Except (AnnError E) Unit
  /-- `get_vector` and `get_associated_data`, for the distance cache. -/
  getVertex : I → Except (AnnError E) Unit
  getAdjacencyList : I → Except (AnnError E) (List I)
  pqDistances : List I → Except (AnnError E) (List (Neighbor I))

/-- The counter of the `IOTracker`, and the keys of the distance cache in the order they came. -/
structure DiskAccessor (I : Type) where
  ioCount : ℕ
  distanceCache : List I

namespace DiskIndex

variable {I E : Type} [DecidableEq I] (D : DiskIndex I E)

def ensureLoaded (a : DiskAccessor I) (ids : List I) : Except (AnnError E) (DiskAccessor I) :=
  if ids = [] then pure a
  else do
    D.ensureVertexLoaded ids
    ids.forM D.getVertex
    pure ⟨a.ioCount + ids.length, a.distanceCache ++ ids⟩

/-- The loop of `expand_beam` over the vertices that were loaded. -/
def expandLoaded : List I → List (Neighbor I) → Finset I → Except (AnnError E) (List (Neighbor I) × Finset I)
  | [], found, visited => pure (found, visited)
  | id :: ids, found, visited => do
    let list ← D.getAdjacencyList id
    let (fresh, visited) := list.foldl (fun (fresh, visited) next =>
      let (isNew, visited) := NotInMut.evalMut visited next
      (if isNew then fresh ++ [next] else fresh, visited)) ([], visited)
    let reported ← D.pqDistances fresh
    expandLoaded ids (found ++ reported) visited

/-- The budget that is left is a subtraction of unsigned integers. -/
def expandBeam (a : DiskAccessor I) (ids : List I) (visited : Finset I) :
    Except (AnnError E) (List (Neighbor I) × Finset I × DiskAccessor I) :=
  if D.searchIoLimit < a.ioCount then .error (.message "attempt to subtract with overflow")
  else do
    let loadIds := ids.take (D.searchIoLimit - a.ioCount)
    let a ← D.ensureLoaded a loadIds
    let (found, visited) ← D.expandLoaded loadIds [] visited
    pure (found, visited, a)

def terminateEarly (a : DiskAccessor I) : Bool := D.searchIoLimit < a.ioCount

def accessor : SearchAccessor I (DiskAccessor I) E where
  startingPoints _ := pure [D.medoid]
  startPointDistances a := do pure (← D.pqDistances [D.medoid], a)
  expandBeam := D.expandBeam
  terminateEarly a := (D.terminateEarly a, a)

/-- One iteration of the main loop, from its head to its head. -/
def Iterates (width : ℕ) (s s' : Search I (DiskAccessor I)) : Prop :=
  s.scratch.best.hasNotvisitedNode = true ∧ D.terminateEarly s.accessor = false ∧
    Search.hop D.accessor width s = pure s'

/-- What the loop has come to after some iterations. -/
abbrev Reaches (width : ℕ) : Search I (DiskAccessor I) → Search I (DiskAccessor I) → Prop :=
  Relation.ReflTransGen (D.Iterates width)

/-- The candidates that an iteration takes out of the queue and marks visited. -/
def beam (width : ℕ) (s : Search I (DiskAccessor I)) : List I :=
  ((Search.fillBeam width { s with scratch := { s.scratch with beamNodes := [] } }).map (·.scratch.beamNodes)).getD []

/-- The counter has what was loaded, and no more than the limit. -/
def Within (a : DiskAccessor I) : Prop := a.ioCount = a.distanceCache.length ∧ a.ioCount ≤ D.searchIoLimit

variable {D} {width fuel : ℕ} {s s' : Search I (DiskAccessor I)} {a a' : DiskAccessor I} {ids : List I}

omit [DecidableEq I] in
theorem ensureLoaded_eq (ran : D.ensureLoaded a ids = .ok a') :
    a' = ⟨a.ioCount + ids.length, a.distanceCache ++ ids⟩ := by
  unfold ensureLoaded at ran
  split_ifs at ran with empty
  · subst empty
    rw [← Except.ok.inj ran, append_nil]
    rfl
  · obtain ⟨_, -, ran⟩ := except_bind_eq_ok.mp ran
    obtain ⟨_, -, ran⟩ := except_bind_eq_ok.mp ran
    exact (Except.ok.inj ran).symm

theorem expandBeam_eq {found : List (Neighbor I)} {visited visited' : Finset I}
    (ran : D.expandBeam a ids visited = .ok (found, visited', a')) :
    a' = ⟨a.ioCount + min (D.searchIoLimit - a.ioCount) ids.length,
      a.distanceCache ++ ids.take (D.searchIoLimit - a.ioCount)⟩ := by
  unfold expandBeam at ran
  split_ifs at ran
  obtain ⟨loaded, first, ran⟩ := except_bind_eq_ok.mp ran
  obtain ⟨_, -, ran⟩ := except_bind_eq_ok.mp ran
  cases ran
  rw [ensureLoaded_eq first, length_take]

omit [DecidableEq I] in
theorem fillBeam_accessor {left : ℕ} (filled : fillBeam left s = some s') : s'.accessor = s.accessor := by
  induction left generalizing s with
  | zero => rw [← Option.some.inj filled]
  | succ left ih =>
    unfold fillBeam at filled
    split at filled
    · cases filled
    · rw [← Option.some.inj filled]
    · exact (ih filled :)

/-- An iteration loads the part of the beam that the limit leaves room for. -/
theorem Iterates.accessor_eq (step : D.Iterates width s s') :
    s'.accessor = ⟨s.accessor.ioCount + min (D.searchIoLimit - s.accessor.ioCount) (beam width s).length,
      s.accessor.distanceCache ++ (beam width s).take (D.searchIoLimit - s.accessor.ioCount)⟩ := by
  obtain ⟨-, -, ran⟩ := step
  obtain ⟨filled, took, ran⟩ := bind_eq_pure.mp ran
  rw [liftM_option_eq_pure] at took
  obtain ⟨⟨found, visited, a⟩, expanded, ran⟩ := bind_eq_pure.mp ran
  obtain ⟨best, -, ran⟩ := bind_eq_pure.mp ran
  obtain rfl := pure_inj ran
  rw [liftM_except_eq_pure] at expanded
  rw [beam, took, expandBeam_eq expanded, fillBeam_accessor took]
  rfl

theorem Iterates.within (step : D.Iterates width s s') (within : D.Within s.accessor) : D.Within s'.accessor := by
  obtain ⟨count, limit⟩ := within
  rw [step.accessor_eq, Within, length_append, length_take]
  dsimp only
  omega

theorem Reaches.within (run : D.Reaches width s s') (within : D.Within s.accessor) : D.Within s'.accessor := by
  induction run with
  | refl => exact within
  | tail _ step ih => exact step.within ih

/-- A loop that ends has gone through iterations of it. -/
theorem reaches_of_loop (ran : loop D.accessor width fuel s = pure s') : D.Reaches width s s' := by
  induction fuel generalizing s with
  | zero => cases ran
  | succ fuel ih =>
    unfold loop at ran
    split_ifs at ran with has
    · change (if D.terminateEarly s.accessor = true then pure s
        else hop D.accessor width s >>= loop D.accessor width fuel) = pure s' at ran
      split_ifs at ran with early
      · rw [pure_inj ran]
      · obtain ⟨next, hopped, ran⟩ := bind_eq_pure.mp ran
        exact .head ⟨has, Bool.eq_false_iff.mpr early, hopped⟩ (ih ran)
    · rw [pure_inj ran]

theorem enterStartPoints_accessor (entered : enterStartPoints D.accessor s = pure s') :
    s'.accessor = s.accessor := by
  unfold enterStartPoints at entered
  split_ifs at entered
  · obtain ⟨⟨reported, a⟩, distances, entered⟩ := bind_eq_pure.mp entered
    obtain ⟨best, -, entered⟩ := bind_eq_pure.mp entered
    rw [← pure_inj entered]
    obtain ⟨_, -, answered⟩ := except_bind_eq_ok.mp (liftM_except_eq_pure.mp distances)
    cases answered
    rfl
  · rw [pure_inj entered]

/-- If every iteration finds more reads left than it takes candidates, the limit is never used up. -/
theorem Reaches.ioCount_lt (run : D.Reaches width s s') (start : s.accessor.ioCount < D.searchIoLimit)
    (spare : ∀ t t', D.Reaches width s t → D.Iterates width t t' →
      t.accessor.ioCount + (beam width t).length < D.searchIoLimit) :
    s'.accessor.ioCount < D.searchIoLimit := by
  induction run with
  | refl => exact start
  | tail run step ih =>
    have room := spare _ _ run step
    rw [step.accessor_eq]
    dsimp only
    omega

theorem disk_search_ioCount (scratch : SearchScratch I) (record : List (Recorded I)) (limit : 1 ≤ D.searchIoLimit)
    (entered : Search.enterStartPoints D.accessor ⟨⟨0, []⟩, scratch, record⟩ = pure s) :
    (∀ t, D.Reaches width s t →
      t.accessor.ioCount = t.accessor.distanceCache.length ∧ t.accessor.ioCount ≤ D.searchIoLimit) ∧
    (∀ fuel t, Search.loop D.accessor width fuel s = pure t → D.Reaches width s t) ∧
    ((∀ t, D.Reaches width s t →
        (t.accessor.ioCount = D.searchIoLimit → D.terminateEarly t.accessor = true) ∧
        ∀ t', D.Iterates width t t' → t'.accessor.distanceCache = t.accessor.distanceCache ++ beam width t) ↔
      ∀ t t', D.Reaches width s t → D.Iterates width t t' →
        t.accessor.ioCount + (beam width t).length < D.searchIoLimit) := by
  have start := enterStartPoints_accessor entered
  have within : D.Within s.accessor := start ▸ ⟨rfl, Nat.zero_le _⟩
  have below (t) (run : D.Reaches width s t) := run.within within
  refine ⟨below, fun _ _ => reaches_of_loop, fun holds t t' run step => ?_, fun spare t run => ⟨?_, ?_⟩⟩
  · by_contra short
    have full : t'.accessor.ioCount = D.searchIoLimit := by
      have bound := (below t run).2
      rw [step.accessor_eq]
      dsimp only
      omega
    have early := (holds t' (run.tail step)).1 full
    rw [terminateEarly, full] at early
    exact absurd early (by simp)
  · intro full
    exact absurd full (run.ioCount_lt (by rw [start]; exact limit) spare).ne
  · intro t' step
    have room := spare t t' run step
    rw [step.accessor_eq, take_of_length_le (by omega)]

/-- Vertex 1 is a neighbour of vertex 0. -/
def edge (medoid searchIoLimit : ℕ) : DiskIndex ℕ Unit where
  medoid := medoid
  searchIoLimit := searchIoLimit
  ensureVertexLoaded _ := pure ()
  getVertex _ := pure ()
  getAdjacencyList id := pure (if id = 0 then [1] else [])
  pqDistances ids := pure (ids.map fun id => ⟨id, F32.zero⟩)

/-- With one read, vertex 1 is taken out of the queue and never expanded. -/
theorem disk_search_drops_candidate : ∃ s t t',
    Search.enterStartPoints (edge 0 1).accessor ⟨⟨0, []⟩, .create ⟨2, 1⟩, []⟩ = pure s ∧
      (edge 0 1).Iterates 1 s t ∧ t.accessor.ioCount = 1 ∧ (edge 0 1).terminateEarly t.accessor = false ∧
      (edge 0 1).Iterates 1 t t' ∧ beam 1 t = [1] ∧ t'.accessor.distanceCache = [0] :=
  ⟨_, _, _, rfl, ⟨rfl, rfl, rfl⟩, rfl, rfl, ⟨rfl, rfl, rfl⟩, rfl, rfl⟩

/-- From vertex 1 there is nothing to expand, and two reads are one more than the search takes. -/
theorem disk_search_ioCount_alone : ∃ s,
    Search.enterStartPoints (edge 1 2).accessor ⟨⟨0, []⟩, .create ⟨2, 1⟩, []⟩ = pure s ∧
      ∀ t t', (edge 1 2).Reaches 1 s t → (edge 1 2).Iterates 1 t t' →
        t'.accessor.distanceCache = t.accessor.distanceCache ++ beam 1 t := by
  obtain ⟨s, s', entered, taken, hopped, done⟩ : ∃ s s',
      Search.enterStartPoints (edge 1 2).accessor ⟨⟨0, []⟩, .create ⟨2, 1⟩, []⟩ = pure s ∧
        s.accessor.ioCount + (beam 1 s).length < 2 ∧ Search.hop (edge 1 2).accessor 1 s = pure s' ∧
        s'.scratch.best.hasNotvisitedNode = false := ⟨_, _, rfl, by decide, rfl, rfl⟩
  refine ⟨s, entered, fun t t' run => ?_⟩
  apply ((disk_search_ioCount (.create ⟨2, 1⟩) [] one_le_two entered).2.2.mpr ?_ t run).2
  intro t t' run step
  obtain rfl | ⟨next, first, rest⟩ := run.cases_head
  · exact taken
  · obtain rfl := pure_inj (hopped.symm.trans first.2.2)
    obtain rfl | ⟨_, ⟨has, -⟩, -⟩ := rest.cases_head
    · exact absurd step.1 (by simp [done])
    · exact absurd has (by simp [done])

end DiskIndex

end DiskAnn.Disk
