import DiskAnn.Num.F32

/-! # The neighbor priority queue

The queue of `queue.rs`: ids with their visited flags and distances in two parallel vectors, kept in
ascending order of distance, and a cursor at the first entry that has not been visited. An access
out of bounds, a failed assertion or an underflow answers `none`. The check of debug builds that an
inserted id is new is left out.
-/

namespace DiskAnn

structure Neighbor (I : Type) where
  id : I
  distance : F32
  deriving DecidableEq, Repr

structure NeighborPriorityQueue (I : Type) where
  size : ℕ
  capacity : ℕ
  cursor : ℕ
  idVisiteds : List (I × Bool)
  distances : List F32
  autoResizable : Bool
  searchParamL : ℕ
  deriving DecidableEq, Repr

namespace NeighborPriorityQueue

variable {I : Type}

def new (searchParamL : ℕ) : NeighborPriorityQueue I where
  size := 0
  capacity := searchParamL
  cursor := 0
  idVisiteds := []
  distances := []
  autoResizable := false
  searchParamL

def autoResizableWithSearchParamL (searchParamL : ℕ) : NeighborPriorityQueue I :=
  { new searchParamL with autoResizable := true }

/-! ## Search for a distance -/

/-- `search.ge_simd(target).first()` on the lanes of a vector. -/
def firstGe (lanes : List F32) (target : F32) : Option ℕ := lanes.findIdx? (·.ge target)

/-- `load_simd`: eight distances from `index` on. -/
def loadSimd (distances : List F32) (index : ℕ) : List F32 := (distances.drop index).take 8

/-- `load_simd_first`: the first `count` lanes are loaded, the others are zero. -/
def loadSimdFirst (distances : List F32) (index count : ℕ) : List F32 :=
  (distances.drop index).take count ++ List.replicate (8 - count) F32.zero

/-- The masked step of `get_lower_bound`. -/
def lowerBoundMasked (distances : List F32) (size : ℕ) (target : F32) (index : ℕ) : ℕ :=
  if index < size then
    match firstGe (loadSimdFirst distances index (size - index)) target with
    | some offset => index + offset
    | none => size
  else size

/-- The steps of `get_lower_bound` after the blocks of sixteen. -/
def lowerBoundTail (distances : List F32) (size : ℕ) (target : F32) (index : ℕ) : ℕ :=
  if index + 8 ≤ size then
    match firstGe (loadSimd distances index) target with
    | some offset => index + offset
    | none => lowerBoundMasked distances size target (index + 8)
  else lowerBoundMasked distances size target index

/-- `get_lower_bound` from `index` on; `fuel` bounds the loop over blocks of sixteen. -/
def lowerBoundFrom (distances : List F32) (size : ℕ) (target : F32) : ℕ → ℕ → ℕ
  | 0, index => lowerBoundTail distances size target index
  | fuel + 1, index =>
      if index + 16 ≤ size then
        match firstGe (loadSimd distances index) target,
            firstGe (loadSimd distances (index + 8)) target with
        | some offset, _ => index + offset
        | none, some offset => index + 8 + offset
        | none, none => lowerBoundFrom distances size target fuel (index + 16)
      else lowerBoundTail distances size target index

variable (q : NeighborPriorityQueue I)

def getLowerBound (nbr : Neighbor I) : ℕ :=
  lowerBoundFrom q.distances q.size nbr.distance q.size 0

/-! ## Operations -/

def getUnchecked (index : ℕ) : Option (Neighbor I) := do
  let (id, _) ← q.idVisiteds[index]?
  let distance ← q.distances[index]?
  pure ⟨id, distance⟩

/-- `get`, with its assertion. -/
def get (index : ℕ) : Option (Neighbor I) :=
  if index < q.size then q.getUnchecked index else none

def reserve (additional : ℕ) : NeighborPriorityQueue I :=
  { q with capacity := q.capacity + additional }

/-- The end of `insert`, once there is room or an entry to give up. -/
def insertOrdered (nbr : Neighbor I) :
    Option (NeighborPriorityQueue I) :=
  let insertIdx := if 0 < q.size then q.getLowerBound nbr else 0
  let q := if q.size = q.capacity then
      { q with
        idVisiteds := q.idVisiteds.take (q.size - 1)
        distances := q.distances.take (q.size - 1)
        size := q.size - 1 }
    else q
  if insertIdx ≤ q.idVisiteds.length ∧ insertIdx ≤ q.distances.length then
    some { q with
      idVisiteds := q.idVisiteds.insertIdx insertIdx (nbr.id, false)
      distances := q.distances.insertIdx insertIdx nbr.distance
      size := q.size + 1
      cursor := if insertIdx < q.cursor then insertIdx else q.cursor }
  else none

def insert (nbr : Neighbor I) : Option (NeighborPriorityQueue I) :=
  if nbr.distance.isNan then some q
  else if q.autoResizable then
    (if q.size = q.capacity then q.reserve (max 1 (q.capacity >>> 1)) else q).insertOrdered nbr
  else if q.size = q.capacity then
    -- `self.size - 1` underflows in an empty queue without capacity
    if q.size = 0 then none
    else
      match q.getUnchecked (q.size - 1) with
      | none => none
      | some last => if last.distance.lt nbr.distance then some q else q.insertOrdered nbr
  else q.insertOrdered nbr

def drainBest (count : ℕ) : NeighborPriorityQueue I :=
  let count := min count q.size
  { q with
    idVisiteds := q.idVisiteds.drop count
    distances := q.distances.drop count
    size := q.size - count
    cursor := 0 }

/-- `iter`: the entries it goes through. -/
def iter : List (Neighbor I) :=
  (List.range (min q.searchParamL q.size)).filterMap q.get

def remove [DecidableEq I] (q : NeighborPriorityQueue I) (nbr : Neighbor I) :
    Bool × NeighborPriorityQueue I :=
  if q.size = 0 then (false, q)
  else
    let index := q.getLowerBound nbr
    if index < q.size ∧ (q.getUnchecked index).map (·.id) = some nbr.id then
      (true, { q with
        idVisiteds := q.idVisiteds.eraseIdx index
        distances := q.distances.eraseIdx index
        size := q.size - 1
        cursor := if index < q.cursor ∧ 0 < q.cursor then q.cursor - 1 else q.cursor })
    else (false, q)

def hasNotvisitedNode : Bool :=
  q.cursor < min q.searchParamL q.size

/-- `set_visited`, with its assertions. -/
def setVisited (index : ℕ) (flag : Bool) :
    Option (NeighborPriorityQueue I) :=
  if index < q.size ∧ q.size ≤ q.capacity then
    some { q with idVisiteds := q.idVisiteds.modify index fun entry => (entry.1, flag) }
  else none

def getVisited (index : ℕ) : Bool :=
  (q.idVisiteds[index]?.map Prod.snd).getD false

/-- The loop of `closest_notvisited` from a cursor on; `fuel` bounds its iterations. -/
def skipVisited (q : NeighborPriorityQueue I) : ℕ → ℕ → ℕ
  | 0, cursor => cursor
  | fuel + 1, cursor =>
      if cursor < q.size ∧ q.getVisited cursor = true then q.skipVisited fuel (cursor + 1)
      else cursor

def closestNotvisited :
    Option (Option (Neighbor I) × NeighborPriorityQueue I) :=
  if !q.hasNotvisitedNode then some (none, q)
  else do
    let current := q.cursor
    let q ← q.setVisited current true
    let q := { q with cursor := q.skipVisited q.size (current + 1) }
    let nbr ← q.getUnchecked current
    pure (some nbr, q)

def reconfigure (searchParamL : ℕ) : NeighborPriorityQueue I :=
  let q := { q with searchParamL }
  let q := if searchParamL < q.size then
      { q with
        idVisiteds := q.idVisiteds.take searchParamL
        distances := q.distances.take searchParamL
        size := searchParamL
        cursor := min q.cursor searchParamL }
    else q
  { q with capacity := searchParamL }

def clear : NeighborPriorityQueue I :=
  { q with idVisiteds := [], distances := [], size := 0, cursor := 0 }

def isFull : Bool := !q.autoResizable && q.size == q.capacity

def truncate (len : ℕ) : NeighborPriorityQueue I :=
  if len < q.size then
    { q with
      idVisiteds := q.idVisiteds.take len
      distances := q.distances.take len
      size := len
      cursor := 0 }
  else q

/-- The compaction loop of `retain`: how many entries are still to be read, and where the next kept
one goes. -/
def retainFrom (keep : Neighbor I → Bool) :
    ℕ → ℕ → NeighborPriorityQueue I → ℕ × NeighborPriorityQueue I
  | 0, writeIdx, q => (writeIdx, q)
  | left + 1, writeIdx, q =>
      let readIdx := q.size - (left + 1)
      match q.idVisiteds[readIdx]?, q.distances[readIdx]? with
      | some entry, some distance =>
          if keep ⟨entry.1, distance⟩ then
            retainFrom keep left (writeIdx + 1) { q with
              idVisiteds := q.idVisiteds.set writeIdx (entry.1, false)
              distances := q.distances.set writeIdx distance }
          else retainFrom keep left writeIdx q
      | _, _ => retainFrom keep left writeIdx q

def retain (keep : Neighbor I → Bool) : NeighborPriorityQueue I :=
  if q.size = 0 then q
  else
    let (writeIdx, q) := retainFrom keep q.size 0 q
    q.truncate writeIdx

end NeighborPriorityQueue

end DiskAnn
