import Mathlib

/-! # The working set of prunes

The map of `workingset/map.rs` that caches vectors over several prunes. Entries carry the generation
of the fill that last asked for them; a fill pins the entries it asks for by moving them to its own
generation and evicts others to stay within the capacity. The entries are a list with distinct keys.
The hash map visits them in an order of its own: a fill comes with that order, any permutation. A
fetch function is given by its answers at each position of the keys. `none` is the underflow of a
subtraction.
-/

namespace DiskAnn.WorkingSet

open List

/-- A value with the generation that asked for it. -/
structure Generation (V : Type) where
  generation : BitVec 32
  value : V
  deriving DecidableEq, Repr

inductive Capacity where
  | none
  | default
  | some (actual : ℕ)
  | unbounded
  deriving DecidableEq, Repr

def Capacity.resolve (capacity : Capacity) (default : ℕ) : Option ℕ :=
  match capacity with
  | .none => .some 0
  | .default => .some default
  | .some actual => .some actual
  | .unbounded => .none

structure Map (K V P : Type) where
  map : List (K × Generation V)
  distinct : (map.map Prod.fst).Nodup
  overlay : Option (K → Option P)
  capacity : Option ℕ
  generation : BitVec 32

/-- What a call of `fill` is given. -/
structure Request (K V E : Type) where
  keys : List K
  fetch : ℕ → K → Except E (Option V)
  order : List (K × Generation V) → List (K × Generation V)
  order_perm : ∀ entries, (order entries).Perm entries

namespace Map

variable {K V P E : Type}

/-- `Builder::build` -/
def build (capacity : Capacity) (overlay : Option (K → Option P)) (defaultCapacity : ℕ) :
    Map K V P where
  map := []
  distinct := nodup_nil
  overlay
  capacity := capacity.resolve defaultCapacity
  generation := 0

variable (m : Map K V P)

abbrev keys : List K := m.map.map Prod.fst

def newGeneration : Map K V P := { m with generation := m.generation + 1 }

section

variable [DecidableEq K]

/-- `self.map.get(key)` -/
def find (m : Map K V P) (key : K) : Option (Generation V) :=
  (m.map.find? fun entry => entry.1 = key).map Prod.snd

/-- `get_mut(key)` with the generation of the entry set to the current one. -/
def touch (m : Map K V P) (key : K) : Map K V P :=
  { m with
    map := m.map.map fun entry =>
      if entry.1 = key then (entry.1, { entry.2 with generation := m.generation }) else entry
    distinct := by
      have same : (m.map.map fun entry => if entry.1 = key then
          (entry.1, { entry.2 with generation := m.generation }) else entry).map Prod.fst =
          m.map.map Prod.fst := by
        rw [map_map]
        refine map_congr_left fun entry _ => ?_
        by_cases here : entry.1 = key <;> simp [here]
      rw [same]
      exact m.distinct }

/-- `Map::get` -/
def get (m : Map K V P) (key : K) : Option V := (m.find key).map (·.value)

def promote (m : Map K V P) : List K → ℕ × Map K V P
  | [] => (0, m)
  | key :: keys =>
      match m.find key with
      | some _ =>
          let (promoted, m) := (m.touch key).promote keys
          (promoted + 1, m)
      | none => m.promote keys

end

/-- The loop of `evict`: what is left after up to `remaining` entries of other generations. -/
def retainFrom (generation : BitVec 32) : ℕ → List (K × Generation V) → List (K × Generation V)
  | 0, entries => entries
  | _ + 1, [] => []
  | remaining + 1, entry :: entries =>
      if entry.2.generation ≠ generation then retainFrom generation remaining entries
      else entry :: retainFrom generation (remaining + 1) entries

theorem retainFrom_sublist (generation : BitVec 32) (remaining : ℕ)
    (entries : List (K × Generation V)) :
    (retainFrom generation remaining entries).Sublist entries := by
  induction entries generalizing remaining with
  | nil => cases remaining <;> exact .refl _
  | cons entry entries ih =>
    cases remaining with
    | zero => exact .refl _
    | succ remaining =>
      unfold retainFrom
      split_ifs with other
      · exact (ih remaining).cons entry
      · exact (ih (remaining + 1)).cons_cons entry

def evict (request : Request K V E) (count : ℕ) : Map K V P :=
  if count = 0 then m
  else { m with
    map := retainFrom m.generation count (request.order m.map)
    distinct := by
      have sub := (retainFrom_sublist m.generation count (request.order m.map)).map Prod.fst
      exact (((request.order_perm m.map).map Prod.fst).nodup_iff.mpr m.distinct).sublist sub }

def clear : Map K V P := { m with map := [], distinct := nodup_nil }

section

variable [DecidableEq K]

def prepare (m : Map K V P) (request : Request K V E) : Option (Map K V P) :=
  let m := m.newGeneration
  if m.map.isEmpty then some m
  else
    match m.capacity with
    | none => some m
    | some capacity =>
        if capacity = 0 then some m.clear
        else
          let len := request.keys.length
          let (promoted, m) := m.promote request.keys
          if promoted ≤ len then
            let extraNeeded := len - promoted
            -- this addition saturates; a `usize` holds the sizes of collections in memory
            let finalSize := m.map.length + extraNeeded
            if capacity ≤ finalSize then some (m.evict request (finalSize - capacity)) else some m
          else none

inductive Entry (V P : Type) where
  | seeded (element : P)
  | occupied (value : V)
  | vacant

/-- `entry`: an occupied entry moves to the current generation. -/
def entry (m : Map K V P) (key : K) : Entry V P × Map K V P :=
  match m.overlay.bind (· key) with
  | some element => (.seeded element, m)
  | none =>
      match m.find key with
      | some tagged => (.occupied tagged.value, m.touch key)
      | none => (.vacant, m)

/-- `self.map.insert(key, value)` with the current generation, as a vacant entry does it. -/
def insertEntry (m : Map K V P) (key : K) (value : V) : Map K V P :=
  { m with
    map := (key, ⟨m.generation, value⟩) :: m.map.filter fun entry => entry.1 ≠ key
    distinct := by
      rw [map_cons, nodup_cons]
      constructor
      · simp only [mem_map, mem_filter, decide_eq_true_eq]
        rintro ⟨entry, ⟨_, other⟩, here⟩
        exact other here
      · exact m.distinct.sublist (filter_sublist.map Prod.fst) }

/-- The loop of `fill`. -/
def fillFrom (fetch : ℕ → K → Except E (Option V)) :
    ℕ → List K → Map K V P → Map K V P × Except E Unit
  | _, [], m => (m, .ok ())
  | position, key :: keys, m =>
      match m.entry key with
      | (.seeded _, m) | (.occupied _, m) => fillFrom fetch (position + 1) keys m
      | (.vacant, m) =>
          match fetch position key with
          | .error e => (m, .error e)
          | .ok none => fillFrom fetch (position + 1) keys m
          | .ok (some value) => fillFrom fetch (position + 1) keys (m.insertEntry key value)

def fill (m : Map K V P) (request : Request K V E) : Option (Map K V P × Except E Unit) := do
  let m ← m.prepare request
  pure (fillFrom request.fetch 0 request.keys m)

/-- `View::get` -/
def viewGet (project : V → P) (m : Map K V P) (id : K) : Option P :=
  (m.overlay.bind (· id)).or ((m.find id).map fun tagged => project tagged.value)

end

end Map

end DiskAnn.WorkingSet
