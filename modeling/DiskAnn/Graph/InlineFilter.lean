import DiskAnn.Graph.Search
import DiskAnn.Num.F64

/-! # Search with a filter inside

`inline_filter_search.rs`. The queue takes every node, to find the way; those the filter accepts are
collected besides. Once enough nodes have been seen, the search list may be made longer, by how few of
them were accepted. No result (`none`) means an assertion that fails or a loop out of fuel.
-/

namespace DiskAnn

/-! ## Parameters -/

inductive AdaptiveLSearchError where
  | scaleFactorLessThanOne
  | sampleCountZero
  deriving DecidableEq, Repr

structure AdaptiveL where
  sampleCount : ℕ
  scaleFactor : F64
  scaleFactor_ge : scaleFactor.lt .one = false
  sampleCount_pos : sampleCount ≠ 0

def AdaptiveL.new (sampleCount : ℕ) (scaleFactor : F64) : Except AdaptiveLSearchError AdaptiveL :=
  if scale : scaleFactor.lt .one = false then
    if positive : sampleCount ≠ 0 then .ok ⟨sampleCount, scaleFactor, scale, positive⟩
    else .error .sampleCountZero
  else .error .scaleFactorLessThanOne

structure Knn where
  lValue : ℕ
  beamWidth : ℕ
  lValue_pos : 1 ≤ lValue
  beamWidth_pos : 1 ≤ beamWidth

/-- The functions of the standard library that are not specified to the last bit. -/
structure FloatLibrary where
  log10 : F64 → F64
  powf : F64 → F64 → F64

/-- `compute_adaptive_l` -/
def FloatLibrary.computeAdaptiveL (lib : FloatLibrary) (baseL visited matched : ℕ)
    (maxMultiplier : F64) : Option ℕ :=
  if matched = 0 ∨ visited = 0 then some ((F64.ofUsize baseL).mul maxMultiplier).toUsize
  else
    let specificity := (F64.ofUsize matched).div (F64.ofUsize visited)
    let multiplier :=
      if specificity.ge .half then .one
      else if specificity.ge .tenth then .two
      else lib.powf .two (lib.log10 specificity).neg
    (multiplier.clamp .one maxMultiplier).map fun multiplier =>
      ((F64.ofUsize baseL).mul multiplier).toUsize

/-! ## Accessors -/

inductive Decision (I : Type) where
  | accept (id : I)
  | reject (id : I)
  deriving DecidableEq, Repr

namespace Decision

variable {I : Type}

def intoInner : Decision I → I
  | .accept id => id
  | .reject id => id

def isAccept : Decision I → Bool
  | .accept _ => true
  | .reject _ => false

end Decision

/-- What a callback is given. -/
structure Decided (I : Type) where
  decision : Decision I
  distance : F32
  deriving DecidableEq, Repr

namespace Decided

variable {I : Type}

def neighbor (d : Decided I) : Neighbor I := ⟨d.decision.intoInner, d.distance⟩

/-- The neighbors that were accepted. -/
def accepted (reported : List (Decided I)) : List (Neighbor I) :=
  (reported.filter (·.decision.isAccept)).map neighbor

end Decided

/-- As `SearchAccessor`, with the decision of the filter for every id that is reported. -/
structure FilteredAccessor (I σ E : Type) where
  numStartingPoints : σ → Except (AnnError E) ℕ
  startPointDistances : σ → Except (AnnError E) (List (Decided I) × σ)
  expandBeamFiltered : σ → List I → Finset I →
    Except (AnnError E) (List (Decided I) × Finset I × σ)
  terminateEarly : σ → Bool × σ

/-! ## The search -/

/-- The variables of `inline_filter_search_internal`, besides those of a search. -/
structure InlineFilter (I σ : Type) extends Search I σ where
  matchedResults : List (Neighbor I)
  sampleVisited : ℕ
  sampleMatched : ℕ
  lAdjusted : Bool

namespace InlineFilter

variable {I σ E : Type} [DecidableEq I] (A : FilteredAccessor I σ E) (lib : FloatLibrary)
  (params : Knn) (adaptiveL : Option AdaptiveL)

/-- The start points go into the queue; they are not counted. -/
def enter (s : Search I σ) : ExceptT (AnnError E) Option (InlineFilter I σ) := do
  let (reported, accessor) ← liftM (A.startPointDistances s.accessor)
  let best ← liftM (s.scratch.best.insertAll (reported.map Decided.neighbor))
  pure {
    accessor
    scratch := { s.scratch with
      best
      visited := s.scratch.visited ∪ (reported.map (·.decision.intoInner)).toFinset }
    record := s.record
    matchedResults := Decided.accepted reported
    sampleVisited := 0
    sampleMatched := 0
    lAdjusted := false }

variable (s : InlineFilter I σ)

/-- Expand the nodes of the beam. -/
def expand : ExceptT (AnnError E) Option (InlineFilter I σ) := do
  let (oneHopNeighbors, visited, accessor) ←
    liftM (A.expandBeamFiltered s.accessor s.scratch.beamNodes s.scratch.visited)
  let best ← liftM (s.scratch.best.insertAll (oneHopNeighbors.map Decided.neighbor))
  pure { s with
    accessor
    scratch := { s.scratch with
      best
      visited
      cmps := s.scratch.cmps + BitVec.ofNat 32 oneHopNeighbors.length
      hops := s.scratch.hops + BitVec.ofNat 32 s.scratch.beamNodes.length }
    matchedResults := s.matchedResults ++ Decided.accepted oneHopNeighbors
    sampleVisited := s.sampleVisited + oneHopNeighbors.length
    sampleMatched := s.sampleMatched + (Decided.accepted oneHopNeighbors).length }

/-- Make the search list longer, once, after enough samples. -/
def adapt : Option (InlineFilter I σ) :=
  match adaptiveL with
  | none => some s
  | some adaptive =>
    if s.lAdjusted = false ∧ adaptive.sampleCount ≤ s.sampleVisited then do
      let newL ← lib.computeAdaptiveL params.lValue s.sampleVisited s.sampleMatched
        adaptive.scaleFactor
      if params.lValue < newL then
        some { s with
          scratch := { s.scratch with best := s.scratch.best.reconfigure newL }
          lAdjusted := true }
      else some { s with lAdjusted := true }
    else some s

/-- An iteration of the loop up to the adaption; it answers nothing when the loop is left. -/
def hop : ExceptT (AnnError E) Option (InlineFilter I σ × Bool) :=
  let (early, accessor) := A.terminateEarly s.accessor
  if early then pure ({ s with accessor }, false)
  else do
    let t ← liftM (Search.fillBeam params.beamWidth
      { accessor, scratch := { s.scratch with beamNodes := [] }, record := s.record })
    let s := { s with toSearch := t }
    if s.scratch.beamNodes = [] then pure (s, false)
    else do
      let s ← expand A s
      pure (s, true)

def loop : ℕ → InlineFilter I σ → ExceptT (AnnError E) Option (InlineFilter I σ)
  | 0, _ => liftM (none : Option (InlineFilter I σ))
  | fuel + 1, s => do
      let (s, goes) ← hop A params s
      if goes then do
        let s ← liftM (adapt lib params adaptiveL s)
        loop fuel s
      else pure s

/-- `inline_filter_search_internal`; `sort` is `sort_unstable_by(fast_distance)`. -/
def inlineFilterSearchInternal (sort : List (Neighbor I) → List (Neighbor I)) (fuel : ℕ)
    (s : Search I σ) : ExceptT (AnnError E) Option (InlineFilter I σ) := do
  let s ← enter A s
  let s ← loop A lib params adaptiveL fuel s
  pure { s with matchedResults := sort s.matchedResults }

end InlineFilter

end DiskAnn
