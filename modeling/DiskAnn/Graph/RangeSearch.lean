import DiskAnn.Graph.Search

/-! # Range search

`range_search.rs`. A first search finds the closest nodes; if enough of them lie within the radius, a
second round walks on from those, along nodes that lie within the radius scaled by a slack factor. What
it has seen within the unscaled radius, and outside of the inner one, is handed out.
-/

namespace DiskAnn

inductive RangeSearchError where
  | beamWidthZero
  | lZero
  | startingListSlackValueError
  | rangeSearchSlackValueError
  | innerRadiusValueError
  | maxReturnedLessThanInitialL
  deriving DecidableEq, Repr

/-- The parameters, as far as they are checked. -/
structure Range where
  maxReturned : Option ℕ
  startingL : ℕ
  beamWidth : ℕ
  radius : F32
  innerRadius : Option F32
  initialSlack : F32
  rangeSlack : F32
  startingL_pos : 1 ≤ startingL
  beamWidth_pos : 1 ≤ beamWidth
  startingL_le : ∀ max ∈ maxReturned, startingL ≤ max
  initialSlack_mem : initialSlack.ge .zero = true ∧ F32.one.ge initialSlack = true
  rangeSlack_ge : rangeSlack.lt .one = false
  innerRadius_le : ∀ inner ∈ innerRadius, radius.lt inner = false

namespace Range

def validateAndCreate (maxReturned : Option ℕ) (startingL : ℕ) (beamWidth : Option ℕ) (radius : F32)
    (innerRadius : Option F32) (initialSlack rangeSlack : F32) : Except RangeSearchError Range :=
  if wide : 1 ≤ beamWidth.getD 1 then
    if positive : 1 ≤ startingL then
      if enough : ∀ max ∈ maxReturned, startingL ≤ max then
        if slack : initialSlack.ge .zero = true ∧ F32.one.ge initialSlack = true then
          if range : rangeSlack.lt .one = false then
            if inner : ∀ inner ∈ innerRadius, radius.lt inner = false then
              .ok ⟨maxReturned, startingL, beamWidth.getD 1, radius, innerRadius, initialSlack,
                rangeSlack, positive, wide, enough, slack, range, inner⟩
            else .error .innerRadiusValueError
          else .error .rangeSearchSlackValueError
        else .error .startingListSlackValueError
      else .error .maxReturnedLessThanInitialL
    else .error .lZero
  else .error .beamWidthZero

variable (r : Range)

/-- `Range::new` -/
def new (startingL : ℕ) (radius : F32) : Except RangeSearchError Range :=
  validateAndCreate none startingL none radius none .one .one

/-- `in_range.len() < max_returned`; the default `usize::MAX` is above the length of any vector. -/
def room (length : ℕ) : Bool :=
  match r.maxReturned with
  | none => true
  | some max => length < max

/-- How many results of the first round lead to a second one. -/
def threshold : ℕ := ((F32.ofUsize r.startingL).mul r.initialSlack).toUsize

/-- The second round runs. -/
def continues (found : ℕ) : Bool := r.threshold ≤ found && r.room found

/-- The predicate of `DistanceFiltered`. -/
def reported (distance : F32) : Bool :=
  (match r.innerRadius with
    | none => true
    | some inner => !inner.ge distance) && r.radius.ge distance

end Range

/-- What the second round uses of the scratch space, and the accessor. -/
structure RangeScratch (I σ : Type) where
  accessor : σ
  visited : Finset I
  rangeFrontier : List I
  inRange : List (Neighbor I)
  hops : BitVec 32
  cmps : BitVec 32
  deriving DecidableEq

/-- What a search leaves: the copying post-processor puts `output` into an unbounded buffer. -/
structure RangeResult (I σ : Type) where
  stats : InternalSearchStats
  output : List (Neighbor I)
  accessor : σ
  deriving DecidableEq

namespace Range

variable {I σ E : Type} [DecidableEq I] (A : SearchAccessor I σ E) (r : Range)

/-- The search of the first round; its results within the radius are those visited so far. -/
def firstRound (fuel : ℕ) (pooled : Option (SearchScratch I)) (accessor : σ) :
    ExceptT (AnnError E) Option (InternalSearchStats × RangeScratch I σ) := do
  let starts ← liftM (A.startingPoints accessor)
  let (stats, s) ← Search.searchInternal A fuel (some r.beamWidth)
    ⟨accessor, .searchScratch pooled r.startingL starts.length, []⟩
  let inRange := (s.scratch.best.iter.take r.startingL).filter fun n => r.radius.ge n.distance
  pure (stats, {
    accessor := s.accessor
    visited := (inRange.map (·.id)).toFinset
    rangeFrontier := []
    inRange
    hops := s.scratch.hops
    cmps := s.scratch.cmps })

/-- A neighbor that was reported joins the results and the frontier. -/
def take (s : RangeScratch I σ) (neighbor : Neighbor I) : RangeScratch I σ :=
  if (r.radius.mul r.rangeSlack).ge neighbor.distance && r.room s.inRange.length then
    { s with
      inRange := s.inRange ++ [neighbor]
      rangeFrontier := s.rangeFrontier ++ [neighbor.id] }
  else s

/-- The body of the loop of the second round. -/
def hop (s : RangeScratch I σ) : ExceptT (AnnError E) Option (RangeScratch I σ) := do
  let beamNodes := s.rangeFrontier.take r.beamWidth
  let (neighbors, visited, accessor) ← liftM (A.expandBeam s.accessor beamNodes s.visited)
  let s := neighbors.foldl r.take
    { s with accessor, visited, rangeFrontier := s.rangeFrontier.drop r.beamWidth }
  pure { s with
    cmps := s.cmps + BitVec.ofNat 32 neighbors.length
    hops := s.hops + BitVec.ofNat 32 beamNodes.length }

def loop : ℕ → RangeScratch I σ → ExceptT (AnnError E) Option (RangeScratch I σ)
  | 0, _ => liftM (none : Option (RangeScratch I σ))
  | fuel + 1, s =>
      if s.rangeFrontier ≠ [] ∧ r.room s.inRange.length = true then do
        loop fuel (← r.hop A s)
      else pure s

/-- `range_search_internal` -/
def rangeSearchInternal (fuel : ℕ) (s : RangeScratch I σ) :
    ExceptT (AnnError E) Option (InternalSearchStats × RangeScratch I σ) := do
  let s ← r.loop A fuel { s with rangeFrontier := s.rangeFrontier ++ s.inRange.map (·.id) }
  pure (⟨s.cmps, s.hops, true⟩, s)

/-- The second round, if it runs, and the statistics over both. -/
def secondRound (fuel : ℕ) (initialStats : InternalSearchStats) (s : RangeScratch I σ) :
    ExceptT (AnnError E) Option (InternalSearchStats × RangeScratch I σ) :=
  if r.continues s.inRange.length then do
    let (rangeStats, s) ← r.rangeSearchInternal A fuel s
    pure (⟨initialStats.cmps, initialStats.hops + rangeStats.hops, true⟩, s)
  else pure (initialStats, s)

def search (fuel : ℕ) (pooled : Option (SearchScratch I)) (accessor : σ) :
    ExceptT (AnnError E) Option (RangeResult I σ) := do
  let (initialStats, s) ← r.firstRound A fuel pooled accessor
  let (stats, s) ← r.secondRound A fuel initialStats s
  pure ⟨stats, s.inRange.filter fun n => r.reported n.distance, s.accessor⟩

end Range

/-! ## Counting what an accessor is asked for -/

structure Tally where
  cmps : ℕ
  hops : ℕ
  deriving DecidableEq, Repr

namespace SearchAccessor

variable {I σ E : Type} [DecidableEq I]

/-- The accessor, with a count of the distances it has computed and the nodes it has expanded. -/
def counting (A : SearchAccessor I σ E) : SearchAccessor I (σ × Tally) E where
  startingPoints s := A.startingPoints s.1
  startPointDistances s := do
    let (reported, a) ← A.startPointDistances s.1
    return (reported, a, { s.2 with cmps := s.2.cmps + reported.length })
  expandBeam s ids visited := do
    let (reported, visited, a) ← A.expandBeam s.1 ids visited
    return (reported, visited, a, ⟨s.2.cmps + reported.length, s.2.hops + ids.length⟩)
  terminateEarly s := ((A.terminateEarly s.1).1, (A.terminateEarly s.1).2, s.2)

end SearchAccessor

end DiskAnn
