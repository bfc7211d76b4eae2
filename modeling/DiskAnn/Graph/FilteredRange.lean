import DiskAnn.Graph.InlineFilter
import DiskAnn.Graph.RangeSearch

/-! # Range search with a filter inside

`filtered_range_search.rs`. The first round is a search that collects what the filter accepts; the
second walks on from all nodes within the radius, accepted or not, and adds those accepted.
-/

namespace DiskAnn

/-- `sort_unstable_by` with the two comparisons of `neighbor::ord`; what is equal is left in any order,
and without order where a distance is not a number. -/
structure UnstableSort (I : Type) [LinearOrder I] where
  fastDistance : List (Neighbor I) → List (Neighbor I)
  fastDistance_perm : ∀ l, (fastDistance l).Perm l
  fastDistance_sorted : ∀ l, (∀ nbr ∈ l, nbr.distance.isNan = false) →
    (fastDistance l).Pairwise fun near far => far.distance.lt near.distance = false
  fastDistanceTotal : List (Neighbor I) → List (Neighbor I)
  fastDistanceTotal_perm : ∀ l, (fastDistanceTotal l).Perm l
  fastDistanceTotal_sorted : ∀ l, (∀ nbr ∈ l, nbr.distance.isNan = false) →
    (fastDistanceTotal l).Pairwise fun near far => far.distance.lt near.distance = false ∧
      (far.distance.eq near.distance = true → near.id ≤ far.id)

/-- What the second round uses of the scratch space, the accessor and the results. -/
structure FilteredScratch (I σ : Type) where
  accessor : σ
  visited : Finset I
  rangeFrontier : List I
  matchedInRange : List (Neighbor I)
  hops : BitVec 32
  cmps : BitVec 32

/-- What a search leaves: `candidates` go to the copying post-processor, which puts `output` into an
unbounded buffer. -/
structure FilteredResult (I σ : Type) where
  stats : InternalSearchStats
  candidates : List (Neighbor I)
  output : List (Neighbor I)
  accessor : σ

/-- `dedup_by` with equal ids. -/
def dedupById {I : Type} [DecidableEq I] (l : List (Neighbor I)) : List (Neighbor I) :=
  l.destutter fun left right => left.id ≠ right.id

namespace FilteredRange

variable {I σ E : Type} [LinearOrder I] (A : FilteredAccessor I σ E) (r : Range)

def toKnn : Knn := ⟨r.startingL, r.beamWidth, r.startingL_pos, r.beamWidth_pos⟩

/-- A node that was reported. -/
def take (s : FilteredScratch I σ) (d : Decided I) : FilteredScratch I σ :=
  if (r.radius.mul r.rangeSlack).ge d.distance then
    let s := { s with rangeFrontier := s.rangeFrontier ++ [d.decision.intoInner] }
    if r.radius.ge d.distance && d.decision.isAccept && r.room s.matchedInRange.length then
      { s with matchedInRange := s.matchedInRange ++ [d.neighbor] }
    else s
  else s

/-- The body of the loop of the second round. -/
def hop (s : FilteredScratch I σ) : ExceptT (AnnError E) Option (FilteredScratch I σ) := do
  let beamNodes := s.rangeFrontier.take r.beamWidth
  let (neighbors, visited, accessor) ← liftM (A.expandBeamFiltered s.accessor beamNodes s.visited)
  let s := neighbors.foldl (take r)
    { s with accessor, visited, rangeFrontier := s.rangeFrontier.drop r.beamWidth }
  pure { s with
    cmps := s.cmps + BitVec.ofNat 32 neighbors.length
    hops := s.hops + BitVec.ofNat 32 beamNodes.length }

/-- `filtered_range_search_internal` -/
def loop : ℕ → FilteredScratch I σ → ExceptT (AnnError E) Option (FilteredScratch I σ)
  | 0, _ => liftM (none : Option (FilteredScratch I σ))
  | fuel + 1, s =>
      if s.rangeFrontier ≠ [] ∧ r.room s.matchedInRange.length = true then do
        loop fuel (← hop A r s)
      else pure s

variable (sort : UnstableSort I) (s : InlineFilter I σ)

/-- All nodes within the radius that the first round has found, accepted or not. -/
def inRange : List (Neighbor I) :=
  dedupById (sort.fastDistanceTotal
    ((s.scratch.best.iter.take r.startingL ++ s.matchedResults).filter
      fun n => r.radius.ge n.distance))

/-- Those that were accepted. -/
def matchedWithinRadius : List (Neighbor I) :=
  s.matchedResults.filter fun n => r.radius.ge n.distance

/-- The state in which the second round begins. -/
def seeded : FilteredScratch I σ where
  accessor := s.accessor
  visited := ((inRange r sort s).map (·.id)).toFinset
  rangeFrontier := (inRange r sort s).map (·.id)
  matchedInRange := matchedWithinRadius r s
  hops := s.scratch.hops
  cmps := s.scratch.cmps

/-- The second round, if it runs. -/
def secondRound (fuel : ℕ) (s : InlineFilter I σ) :
    ExceptT (AnnError E) Option (InternalSearchStats × List (Neighbor I) × σ) :=
  if r.threshold ≤ (inRange r sort s).length ∧ r.room (matchedWithinRadius r s).length = true then do
    let s ← loop A r fuel (seeded r sort s)
    pure (⟨s.cmps, s.hops, true⟩, s.matchedInRange, s.accessor)
  else pure (⟨s.scratch.cmps, s.scratch.hops, false⟩, matchedWithinRadius r s, s.accessor)

/-- `take(max_returned)` -/
def truncate (matched : List (Neighbor I)) : List (Neighbor I) :=
  match r.maxReturned with
  | none => matched
  | some max => matched.take max

/-- The predicate of `DistanceFiltered`: the radius itself has been seen to. -/
def reported (distance : F32) : Bool :=
  match r.innerRadius with
  | none => true
  | some inner => !inner.ge distance

def search (lib : FloatLibrary) (sort : UnstableSort I) (fuel : ℕ)
    (pooled : Option (SearchScratch I)) (accessor : σ) :
    ExceptT (AnnError E) Option (FilteredResult I σ) := do
  let starts ← liftM (A.numStartingPoints accessor)
  let s ← InlineFilter.inlineFilterSearchInternal A lib (toKnn r) none sort.fastDistance fuel
    ⟨accessor, .searchScratch pooled r.startingL starts, []⟩
  let (stats, matched, accessor) ← secondRound A r sort fuel s
  let candidates := truncate r matched
  pure ⟨stats, candidates, candidates.filter fun n => reported r n.distance, accessor⟩

end FilteredRange

end DiskAnn
