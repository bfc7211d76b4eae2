import DiskAnn.Graph.Search

/-! # Beta filtering

`BetaAccessor` of `betafilter.rs`: an accessor around another one that multiplies the distances of
matching ids by `beta`. It does not pass `terminate_early` on, so the one that the trait provides is used.
-/

namespace DiskAnn

variable {I σ E : Type}

/-- `Filter`, with what its labels match. -/
structure BetaFilter (I : Type) where
  isMatch : I → Bool
  beta : F32

/-- `Filter::apply`, on what is reported. -/
def BetaFilter.apply (filter : BetaFilter I) (nbr : Neighbor I) : Neighbor I :=
  { nbr with distance := if filter.isMatch nbr.id then nbr.distance.mul filter.beta else nbr.distance }

namespace SearchAccessor

variable (inner : SearchAccessor I σ E) (filter : BetaFilter I)

def betaAccessor : SearchAccessor I σ E where
  startingPoints := inner.startingPoints
  startPointDistances a := (inner.startPointDistances a).map fun (reported, a) => (reported.map filter.apply, a)
  expandBeam a ids visited := (inner.expandBeam a ids visited).map fun (reported, visited, a) =>
    (reported.map filter.apply, visited, a)
  terminateEarly a := (false, a)

/-- What the wrapper is for: the inner accessor in everything but the distances of matching ids. -/
def rescaled : SearchAccessor I σ E :=
  { inner.betaAccessor filter with terminateEarly := inner.terminateEarly }

theorem rescaled_eq (none : ∀ id, filter.isMatch id = false) : inner.rescaled filter = inner := by
  have same : filter.apply = id := funext fun nbr => by simp [BetaFilter.apply, none]
  obtain ⟨points, starts, expand, early⟩ := inner
  simp only [rescaled, betaAccessor, same, List.map_id, mk.injEq, true_and, and_true]
  constructor
  · exact funext fun a => by cases starts a <;> rfl
  · exact funext fun a => funext fun ids => funext fun visited => by cases expand a ids visited <;> rfl

end SearchAccessor

namespace Search

variable {inner : SearchAccessor I σ E} {filter : BetaFilter I} {s : Search I σ}

/-- The inner accessor would let the loop go on in a state, and does not notice the question. -/
def Quiet (inner : SearchAccessor I σ E) (s : Search I σ) : Prop :=
  s.scratch.best.hasNotvisitedNode = true → inner.terminateEarly s.accessor = (false, s.accessor)

/-- One round of the loop. -/
def Step (A : SearchAccessor I σ E) (beamWidth : ℕ) (s t : Search I σ) : Prop := hop A beamWidth s = pure t

theorem loop_betaAccessor {beamWidth : ℕ} (fuel : ℕ)
    (quiet : ∀ t, Relation.ReflTransGen (Step (inner.betaAccessor filter) beamWidth) s t → Quiet inner t) :
    loop (inner.betaAccessor filter) beamWidth fuel s = loop (inner.rescaled filter) beamWidth fuel s := by
  induction fuel generalizing s with
  | zero => rfl
  | succ fuel ih =>
    unfold loop
    split_ifs with more
    · rw [show (inner.rescaled filter).terminateEarly s.accessor = _ from quiet s .refl more]
      -- both hops are the same term, for they do not ask whether to terminate
      change hop (inner.betaAccessor filter) beamWidth s >>= _ = hop (inner.betaAccessor filter) beamWidth s >>= _
      rcases ran : hop (inner.betaAccessor filter) beamWidth s with _ | _ | t
      · rfl
      · rfl
      · exact ih fun t' reached => quiet t' (.head ran reached)
    · rfl

/-- Two nodes, of which the first is the start point. -/
def twoNodes (early : Bool) : SearchAccessor ℕ Unit Empty where
  startingPoints _ := .ok [0]
  startPointDistances _ := .ok ([⟨0, .zero⟩], ())
  expandBeam _ _ visited := .ok (if 1 ∈ visited then [] else [⟨1, .one⟩], insert 1 visited, ())
  terminateEarly _ := (early, ())

end Search

end DiskAnn
