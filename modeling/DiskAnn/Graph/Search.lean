import DiskAnn.Neighbor.QueueContents

/-! # Greedy graph search

`search_internal` of `index.rs` and the paged search of `paged.rs`. A `SearchAccessor` answers what a
search asks of the index and keeps a state of its own; `expandBeam` is given the set behind the
`NotInMut` predicate and answers the calls of `on_neighbors`, in order, with the set afterwards. A
search ends in an error of the accessor (`Except`), or in no result at all (`Option`): an assertion
of the queue fails or the fuel of the main loop runs out. The counters wrap around.
-/

namespace DiskAnn

inductive AnnError (E : Type) where
  | message (text : String)
  | accessor (error : E)
  deriving DecidableEq, Repr

structure SearchAccessor (I σ E : Type) where
  startingPoints : σ → Except (AnnError E) (List I)
  startPointDistances : σ → Except (AnnError E) (List (Neighbor I) × σ)
  expandBeam : σ → List I → Finset I → Except (AnnError E) (List (Neighbor I) × Finset I × σ)
  terminateEarly : σ → Bool × σ

/-- `NotInMut::eval_mut` -/
def NotInMut.evalMut {I : Type} [DecidableEq I] (visited : Finset I) (item : I) : Bool × Finset I :=
  (decide (item ∉ visited), insert item visited)

/-! ## Scratch space -/

structure SearchScratch (I : Type) where
  best : NeighborPriorityQueue I
  visited : Finset I
  beamNodes : List I
  hops : BitVec 32
  cmps : BitVec 32

inductive PriorityQueueConfiguration where
  | fixed (capacity : ℕ)
  | resizable (capacity : ℕ)
  deriving DecidableEq, Repr

structure SearchScratchParams where
  lValue : ℕ
  numFrozenPts : ℕ
  deriving DecidableEq, Repr

namespace SearchScratch

variable {I : Type}

def new (nbest : PriorityQueueConfiguration) : SearchScratch I where
  best := match nbest with
    | .fixed capacity => .new capacity
    | .resizable capacity => .autoResizableWithSearchParamL capacity
  visited := ∅
  beamNodes := []
  hops := 0
  cmps := 0

def clear (scratch : SearchScratch I) : SearchScratch I where
  best := scratch.best.clear
  visited := ∅
  beamNodes := []
  hops := 0
  cmps := 0

def create (param : SearchScratchParams) : SearchScratch I :=
  new (.fixed (param.lValue + param.numFrozenPts))

def modify (scratch : SearchScratch I) (param : SearchScratchParams) : SearchScratch I :=
  let scratch := scratch.clear
  if scratch.best.autoResizable then
    { scratch with best := .new (param.lValue + param.numFrozenPts) }
  else { scratch with best := scratch.best.reconfigure (param.lValue + param.numFrozenPts) }

/-- `search_scratch`: a scratch of the pool, or a new one when the pool is empty. -/
def searchScratch (pooled : Option (SearchScratch I)) (l additional : ℕ) : SearchScratch I :=
  match pooled with
  | none => create ⟨l, additional⟩
  | some scratch => scratch.modify ⟨l, additional⟩

theorem modify_eq_create (scratch : SearchScratch I) (param : SearchScratchParams) :
    scratch.modify param = create param := by
  unfold modify
  cases resizable : scratch.best.autoResizable with
  | true => exact if_pos resizable
  | false =>
    simp [clear, create, new, NeighborPriorityQueue.clear, NeighborPriorityQueue.reconfigure,
      NeighborPriorityQueue.new]

/-- What the pool hands out does not depend on what the scratch was used for. -/
theorem searchScratch_eq (pooled : Option (SearchScratch I)) (l additional : ℕ) :
    searchScratch pooled l additional = new (.fixed (l + additional)) := by
  cases pooled with
  | none => rfl
  | some scratch => exact scratch.modify_eq_create _

end SearchScratch

/-! ## The main loop -/

/-- What `SearchRecord::record` is given. -/
structure Recorded (I : Type) where
  neighbor : Neighbor I
  hops : BitVec 32
  cmps : BitVec 32
  deriving DecidableEq, Repr

/-- What `search_internal` borrows mutably. -/
structure Search (I σ : Type) where
  accessor : σ
  scratch : SearchScratch I
  record : List (Recorded I)

structure InternalSearchStats where
  cmps : BitVec 32
  hops : BitVec 32
  rangeSearchSecondRound : Bool
  deriving DecidableEq, Repr

namespace Search

variable {I σ E : Type} [DecidableEq I] (A : SearchAccessor I σ E)

/-- The start points go into the queue if nothing has been visited yet. -/
def enterStartPoints (s : Search I σ) :
    ExceptT (AnnError E) Option (Search I σ) :=
  if s.scratch.visited = ∅ then do
    let (reported, accessor) ← liftM (A.startPointDistances s.accessor)
    let best ← liftM (s.scratch.best.insertAll reported)
    pure { s with
      accessor
      scratch := { s.scratch with
        best
        visited := s.scratch.visited ∪ (reported.map (·.id)).toFinset
        cmps := s.scratch.cmps + BitVec.ofNat 32 reported.length } }
  else pure s

/-- The inner loop: up to `left` further nodes for the beam. -/
def fillBeam : ℕ → Search I σ → Option (Search I σ)
  | 0, s => some s
  | left + 1, s =>
      match s.scratch.best.closestNotvisited with
      | none => none
      | some (none, best) => some { s with scratch := { s.scratch with best } }
      | some (some closest, best) =>
          fillBeam left { s with
            scratch := { s.scratch with best, beamNodes := s.scratch.beamNodes ++ [closest.id] }
            record := s.record ++ [⟨closest, s.scratch.hops, s.scratch.cmps⟩] }

/-- The body of the main loop. -/
def hop (beamWidth : ℕ) (s : Search I σ) :
    ExceptT (AnnError E) Option (Search I σ) := do
  let s ← liftM (fillBeam beamWidth { s with scratch := { s.scratch with beamNodes := [] } })
  let (neighbors, visited, accessor) ←
    liftM (A.expandBeam s.accessor s.scratch.beamNodes s.scratch.visited)
  let best ← liftM (s.scratch.best.insertAll neighbors)
  pure { s with
    accessor
    scratch := { s.scratch with
      best
      visited
      cmps := s.scratch.cmps + BitVec.ofNat 32 neighbors.length
      hops := s.scratch.hops + BitVec.ofNat 32 s.scratch.beamNodes.length } }

/-- The main loop; `fuel` bounds its iterations. -/
def loop (A : SearchAccessor I σ E) (beamWidth : ℕ) :
    ℕ → Search I σ → ExceptT (AnnError E) Option (Search I σ)
  | 0, _ => liftM (none : Option (Search I σ))
  | fuel + 1, s =>
      if s.scratch.best.hasNotvisitedNode then
        let (early, accessor) := A.terminateEarly s.accessor
        if early then pure { s with accessor }
        else do loop A beamWidth fuel (← hop A beamWidth { s with accessor })
      else pure s

def searchInternal (fuel : ℕ) (beamWidth : Option ℕ) (s : Search I σ) :
    ExceptT (AnnError E) Option (InternalSearchStats × Search I σ) := do
  let s ← enterStartPoints A s
  let s ← loop A (beamWidth.getD 1) fuel s
  pure (⟨s.scratch.cmps, s.scratch.hops, false⟩, s)

end Search

/-! ## Paged search -/

structure PagedSearch (I σ : Type) where
  scratch : SearchScratch I
  computedResult : List (Neighbor I)
  nextResultIndex : ℕ
  searchParamL : ℕ
  accessor : σ

namespace PagedSearch

variable {I σ E : Type} [DecidableEq I] [Inhabited I] (A : SearchAccessor I σ E)

/-- `paged_search_with_init_ids`, with the accessor that the strategy made. -/
def pagedSearchWithInitIds (accessor : σ) (lValue : ℕ)
    (initIds : Option (List I)) : ExceptT (AnnError E) Option (PagedSearch I σ) := do
  let startIds ← liftM (A.startingPoints accessor)
  let initIds := initIds.getD startIds
  let scratch : SearchScratch I := .new (.resizable (lValue + startIds.length))
  let (neighbors, visited, accessor) ←
    liftM (A.expandBeam accessor initIds (scratch.visited ∪ initIds.toFinset))
  let best ← liftM (scratch.best.insertAll neighbors)
  pure {
    scratch := { scratch with best, visited }
    computedResult := List.replicate lValue ⟨default, .zero⟩
    nextResultIndex := lValue
    searchParamL := lValue
    accessor }

def pagedSearch (accessor : σ) (lValue : ℕ) :
    ExceptT (AnnError E) Option (PagedSearch I σ) :=
  pagedSearchWithInitIds A accessor lValue none

/-- The loop of `filter_search_candidates`. -/
def filterFrom (startPoints : List I) (pageSize : ℕ) :
    List (Neighbor I) → List (Neighbor I) × ℕ → List (Neighbor I) × ℕ
  | [], found => found
  | n :: rest, (candidates, total) =>
      if n.id ∈ startPoints then filterFrom startPoints pageSize rest (candidates, total + 1)
      else if pageSize ≤ (candidates ++ [n]).length then (candidates ++ [n], total + 1)
      else filterFrom startPoints pageSize rest (candidates ++ [n], total + 1)

/-- `filter_search_candidates`, without the check of debug builds. -/
def filterSearchCandidates (startPoints : List I) (pageSize : ℕ) (best : NeighborPriorityQueue I) :
    List (Neighbor I) × ℕ :=
  filterFrom startPoints pageSize best.iter ([], 0)

/-- The part of `next_page` after the cached results. -/
def resume (fuel k : ℕ) (result : List (Neighbor I))
    (p : PagedSearch I σ) : ExceptT (AnnError E) Option (List (Neighbor I) × PagedSearch I σ) := do
  let (_, s) ← Search.searchInternal A fuel none ⟨p.accessor, p.scratch, []⟩
  let startPoints ← liftM (A.startingPoints s.accessor)
  let (candidates, totalConsidered) := filterSearchCandidates startPoints k s.scratch.best
  let leftover := min (k - result.length) candidates.length
  pure (result ++ candidates.take leftover, { p with
    accessor := s.accessor
    scratch := { s.scratch with best := s.scratch.best.drainBest totalConsidered }
    computedResult := candidates
    nextResultIndex := leftover })

def nextPage (fuel k : ℕ) (p : PagedSearch I σ) :
    ExceptT (AnnError E) Option (List (Neighbor I) × PagedSearch I σ) :=
  if p.searchParamL < k then
    throw (.message "k should be less than or equal to search_param_l")
  else if k = 0 then throw (.message "k should be greater than 0")
  else
    let fromCache := min k (p.computedResult.length - p.nextResultIndex)
    let result := (p.computedResult.drop p.nextResultIndex).take fromCache
    let p := { p with nextResultIndex := p.nextResultIndex + fromCache }
    if 0 < fromCache ∧ result.length = k then pure (result, p)
    else resume A fuel k result p

/-- One page after the other. -/
def nextPages (A : SearchAccessor I σ E) (fuel : ℕ) :
    List ℕ → PagedSearch I σ → ExceptT (AnnError E) Option (List (List (Neighbor I)) × PagedSearch I σ)
  | [], p => pure ([], p)
  | k :: ks, p => do
      let (page, p) ← nextPage A fuel k p
      let (pages, p) ← nextPages A fuel ks p
      pure (page :: pages, p)

end PagedSearch

end DiskAnn
