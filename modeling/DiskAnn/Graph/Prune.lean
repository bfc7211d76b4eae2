import DiskAnn.Neighbor.Queue

/-! # RobustPrune

`robust_prune` of `prune.rs` with the pruning rules of `config/mod.rs`. One state per candidate position
serves two ends: entry `i` tracks candidate `i`, and entry `n` names the `n`th selected candidate. A
run ends in no result (`none`) when an index is out of bounds or a loop runs out of fuel. Indices are
stored as `u16`: `narrow` says what becomes of one that does not fit.
-/

namespace DiskAnn

inductive PruneKind where
  | triangleInequality
  | occluding
  deriving DecidableEq, Repr

namespace PruneKind

/-- `OCCLUDING_MASK`, `0.01` -/
def occludingMask : F32 := ⟨0x3c23d70a⟩

def updateOccludeFactor (kind : PruneKind) (distanceIk distanceJk currentFactor currentAlpha : F32) :
    F32 :=
  match kind with
  | .triangleInequality =>
      if distanceJk.eq .zero then .max else currentFactor.maxNum (distanceIk.div distanceJk)
  | .occluding =>
      if distanceJk.lt (currentAlpha.mul distanceIk) then currentAlpha.add occludingMask
      else currentFactor

end PruneKind

namespace Prune

structure State where
  occludeFactor : F32
  lastChecked : ℕ
  neighbor : ℕ
  deriving DecidableEq, Repr

/-- `State::default` -/
def State.init : State := ⟨.zero, 0, 0⟩

/-- A release build: what does not fit into a `u16` loses its high bits. -/
def wrapping (n : ℕ) : Option ℕ := some (n % 2 ^ 16)

/-- Every value has to fit. -/
def checked (n : ℕ) : Option ℕ := if n < 2 ^ 16 then some n else none

end Prune

/-- What `robust_prune` is called with. -/
structure Prune (V : Type) where
  candidates : List (Neighbor (Option V))
  degree : ℕ
  alpha : F32
  pruneKind : PruneKind
  computeDistance : V → V → F32

namespace Prune

/-- The variables of the inner loop. -/
structure Comparison where
  states : List State
  occludeFactor : F32
  lastChecked : ℕ
  deriving DecidableEq, Repr

/-- The variables of the outer loop. -/
structure Progress where
  states : List State
  found : ℕ
  deriving DecidableEq, Repr

variable {V : Type} (narrow : ℕ → Option ℕ) (p : Prune V)

/-- `1.2` -/
def maxIncrement : F32 := ⟨0x3f99999a⟩

def incrementFactor : F32 := p.alpha.minNum maxIncrement

/-- The factor of the round after one with factor `currentAlpha`. -/
def nextAlpha (currentAlpha : F32) : F32 :=
  (currentAlpha.mul p.incrementFactor).minNum p.alpha

/-- The distance of a candidate to the result `result`. -/
def resultDistance (neighbor : V) (result : Option V) : F32 :=
  match result with
  | some v => p.computeDistance neighbor v
  | none => .max

/-- The inner loop: compare candidate `i` with the results it has not been compared with. -/
def compare (currentAlpha : F32) (i : ℕ) (neighbor : V) (neighborDistance : F32) (found : ℕ) :
    ℕ → Comparison → Option Comparison
  | 0, _ => none
  | fuel + 1, c =>
      if c.lastChecked = found then some c
      else do
        let result ← c.states[c.lastChecked]?
        let lastChecked ← narrow (c.lastChecked + 1)
        if i ≤ result.neighbor then
          compare currentAlpha i neighbor neighborDistance found fuel { c with
            states := c.states.modify i ({ · with lastChecked })
            lastChecked }
        else do
          let candidate ← p.candidates[result.neighbor]?
          let occludeFactor := p.pruneKind.updateOccludeFactor neighborDistance
            (p.resultDistance neighbor candidate.id) c.occludeFactor currentAlpha
          if currentAlpha.lt occludeFactor then some { c with occludeFactor, lastChecked }
          else
            compare currentAlpha i neighbor neighborDistance found fuel
              { c with occludeFactor, lastChecked }

/-- The body of the loop over the candidates; after its `break` every further call is idle. -/
def visit (fuel : ℕ) (currentAlpha : F32) (s : Progress) (entry : Neighbor (Option V) × ℕ) :
    Option Progress :=
  let (candidate, i) := entry
  if p.degree ≤ s.found then some s
  else do
    let state ← s.states[i]?
    if currentAlpha.lt state.occludeFactor then some s
    else match candidate.id with
      | none => some { s with states := s.states.modify i ({ · with occludeFactor := .max }) }
      | some neighbor => do
          let c ← compare narrow p currentAlpha i neighbor candidate.distance s.found fuel
            ⟨s.states, state.occludeFactor, state.lastChecked⟩
          let states := c.states.modify i ({ · with lastChecked := c.lastChecked })
          if currentAlpha.lt c.occludeFactor then
            some { s with states := states.modify i ({ · with occludeFactor := c.occludeFactor }) }
          else do
            let states := states.modify i ({ · with occludeFactor := .max })
            let index ← narrow i
            let _ ← states[s.found]?
            some ⟨states.modify s.found ({ · with neighbor := index }), s.found + 1⟩

/-- The loop over the candidates. -/
def round (fuel : ℕ) (currentAlpha : F32) (s : Progress) : Option Progress :=
  p.candidates.zipIdx.foldlM (visit narrow p fuel currentAlpha) s

/-- The outer loop, of at most `left` iterations. -/
def rounds (fuel : ℕ) : ℕ → F32 → Progress → Option Progress
  | 0, _, _ => none
  | left + 1, currentAlpha, s =>
      if s.found < p.degree then do
        let s ← round narrow p fuel currentAlpha s
        if currentAlpha.eq p.alpha then some s
        else rounds fuel left (p.nextAlpha currentAlpha) s
      else some s

/-- `robust_prune`; either loop may take `fuel` iterations. -/
def robustPrune (fuel : ℕ) (states : List State) : Option Progress :=
  rounds narrow p fuel fuel .one ⟨states, 0⟩

/-- The states as the caller sets them up. -/
def freshStates : List State := List.replicate p.candidates.length .init

/-- The positions written to `states[..found]`. -/
def Progress.selected (s : Progress) : List ℕ := (s.states.take s.found).map State.neighbor

end Prune

end DiskAnn
