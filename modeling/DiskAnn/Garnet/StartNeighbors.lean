import DiskAnn.Garnet.StartPoint

/-! # The cached neighbors of the start point

`set_neighbors` and `append_vector` change the row of the start point in Garnet and its list in the
cache in one read-modify-write. The closure of `append_vector` returns as soon as it finds the row full
and then leaves the cache as it was; when it has appended something before that, the two differ.
-/

namespace DiskAnn.Garnet.Provider

open Machine Prog List Function Row Option State

variable {maxDegree : ℕ}

/-! ## Rows -/

namespace Row

theorem length_neighbors {row : Row maxDegree} (small : row.len ≤ maxDegree) :
    row.neighbors.length = row.len := by
  rw [neighbors, length_take, Vector.length_toList]
  omega

theorem neighbors_zero : (zero : Row maxDegree).neighbors = [] := by
  simp [neighbors, len, zero]

theorem len_ofNeighbors (neighbors scratch : List ℕ) :
    (ofNeighbors maxDegree neighbors scratch).len = neighbors.length := by
  simp [len, ofNeighbors]

/-- What is read back is what was set, whatever the scratch list held. -/
theorem neighbors_ofNeighbors {neighbors : List ℕ} (short : neighbors.length ≤ maxDegree)
    (scratch : List ℕ) : (ofNeighbors maxDegree neighbors scratch).neighbors = neighbors := by
  rw [Row.neighbors, len_ofNeighbors]
  refine ext_getElem ?_ fun i inRow inList => ?_
  · rw [length_take, Vector.length_toList]
    omega
  · have ne : i ≠ maxDegree := by omega
    simp [ofNeighbors, ne, inList]

/-- A new neighbor behind those of a row that is not full. -/
theorem set_len (row : Row maxDegree) {len : ℕ} (room : len < maxDegree) (nbr : ℕ) :
    Row.len ((row.setIfInBounds len nbr).setIfInBounds maxDegree (len + 1)) = len + 1 ∧
      ((row.setIfInBounds len nbr).setIfInBounds maxDegree (len + 1)).toList.take (len + 1) =
        row.toList.take len ++ [nbr] := by
  constructor
  · simp [Row.len]
  · refine ext_getElem (by simp; omega) fun i inRow inList => ?_
    have below : i < len + 1 := (length_take_le _ _).trans_lt' inRow
    have last : maxDegree ≠ i := by omega
    obtain less | rfl := Nat.lt_succ_iff_lt_or_eq.mp below
    · have ne : len ≠ i := by omega
      simp only [getElem_take, Vector.getElem_toList, Vector.getElem_setIfInBounds, last,
        ne, if_false, getElem_append, length_take, Vector.length_toList]
      rw [dif_pos (by omega)]
    · simp [last]

/-- The length that `append_vector` ends with is the one it writes; it returns early with a full row. -/
theorem len_push {row : Row maxDegree} (small : row.len ≤ maxDegree) (new : List ℕ) :
    (push new row row.len).1.len = (push new row row.len).2.getD maxDegree ∧
      (push new row row.len).1.len ≤ maxDegree := by
  induction new generalizing row with
  | nil => exact ⟨rfl, small⟩
  | cons nbr rest ih =>
    unfold push
    split_ifs with full known
    · exact ⟨full, small⟩
    · exact ih small
    · have room : row.len < maxDegree := lt_of_le_of_ne small full
      have grown := (set_len row room nbr).1
      have next := ih (grown.trans_le room)
      rwa [grown] at next

end Row

/-- The neighbors of a list and then those of another that are new. -/
def appendNew (before new : List ℕ) : List ℕ :=
  new.foldl (fun list nbr => if nbr ∈ list then list else list ++ [nbr]) before

theorem length_le_appendNew (before new : List ℕ) : before.length ≤ (appendNew before new).length := by
  induction new generalizing before with
  | nil => exact le_rfl
  | cons nbr rest ih =>
    refine le_trans ?_ (ih _)
    dsimp only
    split_ifs
    · exact le_rfl
    · simp

/-- The list is full already, or still has room when all but the last of the new ones are in it. -/
def Fits (maxDegree : ℕ) (before new : List ℕ) : Prop :=
  before.length = maxDegree ∨ (appendNew before new.dropLast).length < maxDegree

instance (maxDegree : ℕ) (before new : List ℕ) : Decidable (Fits maxDegree before new) :=
  inferInstanceAs (Decidable (_ ∨ _))

/-- `append_vector` goes through all of a nonempty list just in case it has room for the last one. -/
theorem Row.push_isSome_iff {row : Row maxDegree} (small : row.len ≤ maxDegree) {new : List ℕ}
    (some_new : new ≠ []) :
    (push new row row.len).2.isSome = true ↔
      (appendNew row.neighbors new.dropLast).length < maxDegree := by
  induction new generalizing row with
  | nil => exact absurd rfl some_new
  | cons nbr rest ih =>
    have count := length_neighbors small
    unfold push
    split_ifs with full known
    · have long := length_le_appendNew row.neighbors (nbr :: rest).dropLast
      simp only [isSome_none, Bool.false_eq_true, false_iff]
      omega
    · by_cases last : rest = []
      · subst last
        have room : row.neighbors.length < maxDegree := by omega
        simpa [push, appendNew] using room
      · rw [ih small last, dropLast_cons_of_ne_nil last]
        simp only [appendNew, foldl_cons]
        rw [if_pos (show nbr ∈ row.neighbors from known)]
    · have room : row.len < maxDegree := lt_of_le_of_ne small full
      obtain ⟨grown, words⟩ := set_len row room nbr
      by_cases last : rest = []
      · subst last
        simpa [push, appendNew, count] using room
      · have next := ih (grown.trans_le room) last
        rw [grown] at next
        rw [next, dropLast_cons_of_ne_nil last]
        simp only [appendNew, foldl_cons]
        rw [if_neg (show nbr ∉ row.neighbors from known), neighbors, grown, words]
        rfl

/-! ## Calls on the start point -/

inductive NeighborCall
  | set (neighbors scratch : List ℕ)
  | append (neighbors : List ℕ)

def NeighborCall.neighbors : NeighborCall → List ℕ
  | set neighbors _ => neighbors
  | append neighbors => neighbors

section State

variable {τ V Q E : Type}

def NeighborCall.code : NeighborCall → Code V Q E maxDegree (Except GarnetProviderError Unit)
  | set neighbors scratch => setNeighbors 0 neighbors scratch
  | append neighbors => appendVector 0 neighbors

/-- The cache holds the list that Garnet stores. -/
def State.Coherent (s : State τ V Q E maxDegree) : Prop :=
  ∃ row, s.neighbors 0 = some row ∧ s.neighborCache = some row.neighbors

/-- An append meets the condition in the state before it; `set_neighbors` always does. -/
def NeighborCall.Meets (s : State τ V Q E maxDegree) : NeighborCall → Prop
  | set _ _ => True
  | append neighbors => ∀ row, s.neighbors 0 = some row → Fits maxDegree row.neighbors neighbors

/-- The row of the start point is there and counts no more than it has slots. -/
def State.RowStored (s : State τ V Q E maxDegree) : Prop :=
  ∃ row, s.neighbors 0 = some row ∧ row.len ≤ maxDegree

variable {s s' : State τ V Q E maxDegree}

theorem State.setNeighbors_coherent (s : State τ V Q E maxDegree) {neighbors : List ℕ}
    (short : neighbors.length ≤ maxDegree) (scratch : List ℕ) :
    (s.setNeighbors 0 neighbors (.ofNeighbors maxDegree neighbors scratch)).Coherent ∧
      (s.setNeighbors 0 neighbors (.ofNeighbors maxDegree neighbors scratch)).RowStored := by
  have stored : (s.setNeighbors 0 neighbors (.ofNeighbors maxDegree neighbors scratch)).neighbors 0 =
      some (.ofNeighbors maxDegree neighbors scratch) := by
    simp only [setNeighbors, setRow, update_self]
  refine ⟨⟨_, stored, ?_⟩, _, stored, ?_⟩
  · rw [neighbors_ofNeighbors short]
    rfl
  · rw [len_ofNeighbors]
    exact short

/-- In a coherent state, an append keeps the cache coherent just in case the new neighbors fit. -/
theorem State.appendVector_coherent_iff {row : Row maxDegree} (stored : s.neighbors 0 = some row)
    (small : row.len ≤ maxDegree) (cached : s.neighborCache = some row.neighbors) (new : List ℕ) :
    (s.appendVector 0 new).Coherent ↔ Fits maxDegree row.neighbors new := by
  have pushed := len_push small new
  have count := length_neighbors small
  have coherent_iff : (s.appendVector 0 new).Coherent ↔
      (s.appendVector 0 new).neighborCache = some (push new row row.len).1.neighbors := by
    have row_eq : (s.appendVector 0 new).neighbors 0 = some (push new row row.len).1 := by
      simp only [appendVector, setRow, stored, getD_some, min_eq_left small,
        update_self]
    simp only [Coherent, row_eq, some.injEq, exists_eq_left']
  have cache_eq : (s.appendVector 0 new).neighborCache =
      (push new row row.len).2.elim (some row.neighbors) fun len =>
        some ((push new row row.len).1.toList.take len) := by
    simp only [appendVector, stored, getD_some, min_eq_left small, cached]
    cases (push new row row.len).2 <;> rfl
  rw [coherent_iff, cache_eq]
  by_cases some_new : new = []
  · subst some_new
    refine iff_of_true rfl ?_
    obtain full | room := small.eq_or_lt
    · exact .inl (count.trans full)
    · exact .inr (count.trans_lt room)
  cases ends : (push new row row.len).2 with
  | some len =>
    have room := (push_isSome_iff small some_new).mp (by rw [ends]; rfl)
    refine iff_of_true ?_ (.inr room)
    rw [ends] at pushed
    exact congrArg (fun len => some (List.take len _)) pushed.1.symm
  | none =>
    have early : ¬ (appendNew row.neighbors new.dropLast).length < maxDegree := fun room => by
      have through := (push_isSome_iff small some_new).mpr room
      rw [ends] at through
      cases through
    rw [ends] at pushed
    rw [Fits, or_iff_left early, elim_none, some.injEq]
    constructor
    · intro same
      rw [same, length_neighbors pushed.2]
      exact pushed.1
    · intro full
      -- a full row is left at the first new neighbor
      obtain ⟨nbr, rest, rfl⟩ := exists_cons_of_ne_nil some_new
      rw [push, if_pos (count.symm.trans full)]

theorem State.RowStored.appendVector (stored : s.RowStored) (new : List ℕ) :
    (s.appendVector 0 new).RowStored := by
  obtain ⟨row, present, small⟩ := stored
  refine ⟨(push new row row.len).1, ?_, (len_push small new).2⟩
  simp only [State.appendVector, State.setRow, present, getD_some, min_eq_left small,
    update_self]

variable [DecidableEq τ] [DecidableEq E] {settings : Settings V Q} {fails : ℕ → Bool} {task : τ}

/-- What a call does to the state when the read-modify-write succeeds. -/
def NeighborCall.after (s : State τ V Q E maxDegree) : NeighborCall → State τ V Q E maxDegree
  | set neighbors scratch =>
      s.tick.setNeighbors 0 neighbors (.ofNeighbors maxDegree neighbors scratch)
  | append neighbors => s.tick.appendVector 0 neighbors

open NeighborCall

theorem NeighborCall.runs {call : NeighborCall} {value : Except GarnetProviderError Unit}
    (run : Runs (exec settings fun _ => false) task call.code s value s') : s' = call.after s := by
  cases call with
  | set neighbors scratch =>
    unfold code setNeighbors at run
    dsimp only at run
    split_ifs at run
    · exact absurd run not_runs_panic
    · replace run := run.after rfl
      exact run.of_ret.2
  | append neighbors =>
    replace run := run.after rfl
    exact run.of_ret.2

theorem NeighborCall.code_runs (settings : Settings V Q) (task : τ) (s : State τ V Q E maxDegree)
    {call : NeighborCall} (short : call.neighbors.length ≤ maxDegree) :
    Runs (exec settings fun _ => false) task call.code s (.ok ()) (call.after s) := by
  cases call with
  | set neighbors scratch =>
    have fits : ¬ maxDegree + 1 < neighbors.length := Nat.not_lt.mpr (short.trans (Nat.le_succ _))
    unfold code setNeighbors
    dsimp only
    rw [if_neg fits]
    exact .op rfl (.ret _ _)
  | append neighbors => exact .op rfl (.ret _ _)

omit [DecidableEq τ] [DecidableEq E] in
/-- In a coherent state, a call keeps the cache coherent just in case it meets its condition. -/
theorem NeighborCall.after_coherent_iff (coherent : s.Coherent) (stored : s.RowStored)
    {call : NeighborCall} (short : call.neighbors.length ≤ maxDegree) :
    (call.after s).RowStored ∧ ((call.after s).Coherent ↔ call.Meets s) := by
  cases call with
  | set neighbors scratch =>
    have set := s.tick.setNeighbors_coherent short scratch
    exact ⟨set.2, iff_of_true set.1 trivial⟩
  | append neighbors =>
    have ticked : s.tick.RowStored := stored
    refine ⟨ticked.appendVector neighbors, ?_⟩
    obtain ⟨row, present, small⟩ := stored
    obtain ⟨row', same, cached⟩ := coherent
    obtain rfl : row = row' := some.inj (present.symm.trans same)
    have kept : (s.tick.appendVector 0 neighbors).Coherent ↔ Fits maxDegree row.neighbors neighbors :=
      appendVector_coherent_iff present small cached neighbors
    refine kept.trans ⟨fun fits row' stored => ?_, fun meets => meets row present⟩
    obtain rfl : row = row' := some.inj (present.symm.trans stored)
    exact fits

/-- `get_neighbors` answers the same with the cache and without it. -/
def State.ReadsAgree (s : State τ V Q E maxDegree) (settings : Settings V Q) : Prop :=
  ∀ task, ∃ neighbors,
    Runs (exec settings fun _ => false) task (getNeighbors 0) s (true, neighbors) s ∧
    Runs (exec settings fun _ => false) task (getNeighbors 0) { s with neighborCache := none }
      (true, neighbors) { s.tick with neighborCache := none }

theorem State.Coherent.readsAgree (coherent : s.Coherent) (settings : Settings V Q) :
    s.ReadsAgree settings := by
  intro task
  obtain ⟨row, stored, cached⟩ := coherent
  refine ⟨row.neighbors, .op (congrArg (fun list => some (s, list)) cached) (.ret _ _), ?_⟩
  exact .op rfl (.op (congrArg (fun row => some (_, row)) stored) (.ret _ _))

/-- Setting the start point leaves a coherent cache. -/
theorem coherent_of_started {s₀ : State τ V Q E maxDegree} {point : V}
    (small : ∀ row, s₀.neighbors 0 = some row → row.len ≤ maxDegree)
    (started : Runs (exec settings fails) task (maybeSetStartPoint settings point) s₀ (.ok ()) s) :
    s.Coherent ∧ s.RowStored := by
  cases maybeSetStartPoint_runs started with
  | loaded _ run =>
    obtain ⟨same, ⟨row, stored, cached⟩, -⟩ := (loadStartPoint_runs run).2 rfl
    have present : s.neighbors 0 = some row := by rw [same, stored]
    exact ⟨⟨row, present, cached⟩, row, present, small row stored⟩
  | wrote _ _ _ _ run =>
    obtain ⟨stored, cached⟩ := (writeStartPoint_runs_ok run).neighbors
    refine ⟨⟨zero, stored, ?_⟩, zero, stored, ?_⟩
    · rw [neighbors_zero]
      exact cached
    · simp [len, zero]

/-- A trace of calls from a coherent state. -/
theorem trace_coherent_iff (coherent : s.Coherent) (stored : s.RowStored)
    {steps : List (Call (State τ V Q E maxDegree) NeighborCall (Except GarnetProviderError Unit))}
    (trace : Trace (exec settings fun _ => false) task code s steps)
    (short : ∀ step ∈ steps, step.call.neighbors.length ≤ maxDegree) :
    (∀ step ∈ steps, step.after.Coherent) ↔ ∀ step ∈ steps, step.call.Meets step.before := by
  induction steps generalizing s with
  | nil => simp
  | cons step rest ih =>
    obtain ⟨rfl, run, trace⟩ := trace
    rw [forall_mem_cons] at short ⊢
    rw [forall_mem_cons]
    have after := runs run
    obtain ⟨stored', kept⟩ := after_coherent_iff coherent stored short.1
    rw [← after] at stored' kept
    constructor
    · rintro ⟨first, others⟩
      exact ⟨kept.mp first, (ih first stored' trace short.2).mp others⟩
    · rintro ⟨first, others⟩
      exact ⟨kept.mpr first, (ih (kept.mpr first) stored' trace short.2).mpr others⟩

/-- After the start point was set, over any sequence of `set_neighbors` and `append_vector` calls with
lists of at most `maxDegree` neighbors: the cache holds what Garnet stores after every call, and both
ways to read it agree, if and only if every append finds the row full or room for all but its last
neighbor. -/
theorem start_neighbors_coherent_iff {s₀ : State τ V Q E maxDegree} {point : V}
    (small : ∀ row, s₀.neighbors 0 = some row → row.len ≤ maxDegree)
    (started : Runs (exec settings fails) task (maybeSetStartPoint settings point) s₀ (.ok ()) s)
    {steps : List (Call (State τ V Q E maxDegree) NeighborCall (Except GarnetProviderError Unit))}
    (trace : Trace (exec settings fun _ => false) task NeighborCall.code s steps)
    (short : ∀ step ∈ steps, step.call.neighbors.length ≤ maxDegree) :
    (∀ step ∈ steps, step.after.Coherent ∧ step.after.ReadsAgree settings) ↔
      ∀ step ∈ steps, step.call.Meets step.before := by
  obtain ⟨coherent, stored⟩ := coherent_of_started small started
  rw [← trace_coherent_iff coherent stored trace short]
  constructor
  · exact fun agree step member => (agree step member).1
  · exact fun agree step member => ⟨agree step member, (agree step member).readsAgree settings⟩

end State

/-- An empty index after its start point was set. -/
def started : State Unit ℕ Unit ℕ 2 :=
  ((evaluate (exec plain fun _ => false) () 60 (maybeSetStartPoint plain 7) emptyIndex).get rfl).2

theorem started_runs : Runs (exec plain fun _ => false) () (maybeSetStartPoint plain 7) emptyIndex
    (.ok ()) started := Runs.get_evaluate _ () 60 _ emptyIndex rfl

/-- Two calls from there. -/
def twoCalls (first second : NeighborCall) :
    List (Call (State Unit ℕ Unit ℕ 2) NeighborCall (Except GarnetProviderError Unit)) :=
  [⟨started, first, .ok (), first.after started⟩,
    ⟨first.after started, second, .ok (), second.after (first.after started)⟩]

theorem twoCalls_trace (first second : NeighborCall) (short : first.neighbors.length ≤ 2)
    (short' : second.neighbors.length ≤ 2) :
    Trace (exec plain fun _ => false) () NeighborCall.code started (twoCalls first second) ∧
      ∀ step ∈ twoCalls first second, step.call.neighbors.length ≤ 2 :=
  ⟨⟨rfl, first.code_runs plain () started short, rfl, second.code_runs plain () _ short', trivial⟩,
    by simp [twoCalls, short, short']⟩

/-- Neighbor 1 is set and neighbor 2 appended, which fills the row. -/
theorem start_neighbors_coherent_filled :
    Runs (exec plain fun _ => false) () (maybeSetStartPoint plain 7) emptyIndex (.ok ()) started ∧
      Trace (exec plain fun _ => false) () NeighborCall.code started
        (twoCalls (.set [1] []) (.append [2])) ∧
      (∀ step ∈ twoCalls (.set [1] []) (.append [2]), step.call.Meets step.before) ∧
      ∀ step ∈ twoCalls (.set [1] []) (.append [2]),
        step.after.Coherent ∧ step.after.ReadsAgree plain := by
  obtain ⟨trace, short⟩ := twoCalls_trace (.set [1] []) (.append [2]) (by decide) (by decide)
  have meets : ∀ step ∈ twoCalls (.set [1] []) (.append [2]), step.call.Meets step.before := by
    simp only [twoCalls, forall_mem_cons]
    refine ⟨trivial, fun row stored => ?_, by simp⟩
    obtain rfl : Row.ofNeighbors 2 [1] [] = row := Option.some.inj stored
    decide
  exact ⟨started_runs, trace, meets, (start_neighbors_coherent_iff (fun row stored => by cases stored) started_runs
    trace short).mpr meets⟩

/-- Neighbor 1 is set and 2 and 3 appended: the row takes 2, is full at 3, and the cache stays. -/
theorem start_neighbors_stale :
    Runs (exec plain fun _ => false) () (maybeSetStartPoint plain 7) emptyIndex (.ok ()) started ∧
      Trace (exec plain fun _ => false) () NeighborCall.code started
        (twoCalls (.set [1] []) (.append [2, 3])) ∧
      (∀ step ∈ twoCalls (.set [1] []) (.append [2, 3]), step.call.neighbors.length ≤ 2) ∧
      ((NeighborCall.append [2, 3]).after ((NeighborCall.set [1] []).after started)).neighborCache =
        some [1] ∧
      (((NeighborCall.append [2, 3]).after ((NeighborCall.set [1] []).after started)).neighbors 0).map
        Row.neighbors = some [1, 2] := by
  obtain ⟨trace, short⟩ := twoCalls_trace (.set [1] []) (.append [2, 3]) (by decide) (by decide)
  exact ⟨started_runs, trace, short, rfl, rfl⟩

end DiskAnn.Garnet.Provider
