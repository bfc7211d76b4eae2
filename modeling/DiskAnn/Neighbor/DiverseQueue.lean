import DiskAnn.Neighbor.Queue

/-! # The diverse neighbor queue

The queue of `diverse_priority_queue.rs`: a global queue of ids with their attribute, and one local
queue for each attribute value that bounds how many ids of that value the global queue may hold. The
map of local queues is an association list; the attribute provider is a function.
-/

namespace DiskAnn

structure VectorIdWithAttribute (I A : Type) where
  id : I
  attributeValue : A
  deriving DecidableEq, Repr

structure DiverseNeighborQueue (I A : Type) where
  globalQueue : NeighborPriorityQueue (VectorIdWithAttribute I A)
  localQueueMap : AList fun _ : A => NeighborPriorityQueue I
  attributeProvider : I → Option A
  diverseResultsL : ℕ
  diverseResultsK : ℕ

namespace DiverseNeighborQueue

variable {I A : Type} [DecidableEq I] [DecidableEq A]

def new (lValue kValue diverseResultsK : ℕ) (attributeProvider : I → Option A) :
    DiverseNeighborQueue I A where
  globalQueue := .new lValue
  localQueueMap := ∅
  attributeProvider
  diverseResultsL := diverseResultsK * lValue / kValue
  diverseResultsK

/-- `Neighbor::new(VectorIdWithAttribute::new(..), ..)` -/
def withAttribute (value : A) (nbr : Neighbor I) : Neighbor (VectorIdWithAttribute I A) :=
  ⟨⟨nbr.id, value⟩, nbr.distance⟩

def withoutAttribute (nbr : Neighbor (VectorIdWithAttribute I A)) : Neighbor I :=
  ⟨nbr.id.id, nbr.distance⟩

variable (q : DiverseNeighborQueue I A)

/-- The queue that `entry(..).or_insert_with(..)` refers to. -/
def localQueue (value : A) : NeighborPriorityQueue I :=
  (q.localQueueMap.lookup value).getD (.new q.diverseResultsL)

def setLocalQueue (value : A) (queue : NeighborPriorityQueue I) :
    DiverseNeighborQueue I A :=
  { q with localQueueMap := q.localQueueMap.insert value queue }

/-- Both queues take the neighbor. -/
def insertBoth (value : A) (nbr : Neighbor I) :
    Option (DiverseNeighborQueue I A) := do
  let localQueue ← (q.localQueue value).insert nbr
  let globalQueue ← q.globalQueue.insert (withAttribute value nbr)
  pure { q.setLocalQueue value localQueue with globalQueue }

/-- The second case of `insert`: the local queue is full. -/
def insertLocalFull (value : A) (nbr : Neighbor I) :
    Option (DiverseNeighborQueue I A) := do
  let worst ← (q.localQueue value).get (q.diverseResultsL - 1)
  if nbr.distance.lt worst.distance then
    let globalQueue := (q.globalQueue.remove (withAttribute value worst)).2
    { q with globalQueue }.insertBoth value nbr
  else pure (q.setLocalQueue value (q.localQueue value))

/-- The third case of `insert`: only the global queue is full. -/
def insertGlobalFull (value : A) (nbr : Neighbor I) :
    Option (DiverseNeighborQueue I A) := do
  let worst ← q.globalQueue.get (q.globalQueue.searchParamL - 1)
  if nbr.distance.lt worst.distance then
    let q ← q.insertBoth value nbr
    match q.localQueueMap.lookup worst.id.attributeValue with
    | some queue =>
        pure (q.setLocalQueue worst.id.attributeValue (queue.remove (withoutAttribute worst)).2)
    | none => pure q
  else pure (q.setLocalQueue value (q.localQueue value))

def insert (nbr : Neighbor I) : Option (DiverseNeighborQueue I A) :=
  match q.attributeProvider nbr.id with
  | none => some q
  | some value =>
      if !(q.localQueue value).isFull && !q.globalQueue.isFull then q.insertBoth value nbr
      else if (q.localQueue value).isFull then q.insertLocalFull value nbr
      else q.insertGlobalFull value nbr

def closestNotvisited (q : DiverseNeighborQueue I A) :
    Option (Option (Neighbor I) × DiverseNeighborQueue I A) := do
  let (nbr, globalQueue) ← q.globalQueue.closestNotvisited
  pure (nbr.map withoutAttribute, { q with globalQueue })

/-- The ids of a local queue that `post_process` removes. -/
def removedItems (diverseResultsK : ℕ) (queue : NeighborPriorityQueue I) : List I :=
  if diverseResultsK < queue.size then (queue.iter.drop diverseResultsK).map (·.id) else []

/-- What `post_process` leaves of a local queue. -/
def trimmed (diverseResultsK : ℕ) (queue : NeighborPriorityQueue I) : NeighborPriorityQueue I :=
  if diverseResultsK < queue.size then queue.truncate diverseResultsK else queue

def trimLocalQueues : AList fun _ : A => NeighborPriorityQueue I where
  entries := q.localQueueMap.entries.map fun entry => ⟨entry.1, trimmed q.diverseResultsK entry.2⟩
  nodupKeys := by
    have keys := q.localQueueMap.nodupKeys
    unfold List.NodupKeys List.keys at keys ⊢
    rwa [List.map_map]

/-- `post_process`, with the removed items in the order of the map. -/
def postProcess : DiverseNeighborQueue I A :=
  let removed := q.localQueueMap.entries.flatMap fun entry => removedItems q.diverseResultsK entry.2
  { q with
    localQueueMap := q.trimLocalQueues
    globalQueue :=
      if removed.isEmpty then q.globalQueue
      else q.globalQueue.retain fun neighbor => neighbor.id.id ∉ removed }

end DiverseNeighborQueue

end DiskAnn
