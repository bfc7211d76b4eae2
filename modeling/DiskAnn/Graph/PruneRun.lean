import DiskAnn.Data.List
import DiskAnn.Graph.Prune

/-! # What a run of RobustPrune selects

`Selection` is the meaning of the shared state array: the positions selected so far, in order, and for
each candidate the factor found for it and the number of results it was compared with. The code runs
through encodings of selections as long as every factor of the schedule is below `f32::MAX`, the mark
of a candidate that is settled.
-/

namespace DiskAnn.Prune

open List Function Option

structure Selection where
  selected : List ℕ
  factor : ℕ → F32
  checked : ℕ → ℕ

namespace Selection

def init : Selection := ⟨[], fun _ => .zero, fun _ => 0⟩

def entry (A : Selection) (i : ℕ) : State := ⟨A.factor i, A.checked i, A.selected.getD i 0⟩

/-- The state array of `n` entries that stands for `A`. -/
def states (A : Selection) (n : ℕ) : List State := (range n).map A.entry

def encode (n : ℕ) (A : Selection) : Progress := ⟨A.states n, A.selected.length⟩

@[simp] theorem length_states (A : Selection) (n : ℕ) : (A.states n).length = n := by simp [states]

theorem getElem?_states (A : Selection) {n i : ℕ} (inside : i < n) :
    (A.states n)[i]? = some (A.entry i) := by
  simp [states, inside]

/-- An edit of one entry. -/
theorem modify_states {A B : Selection} {f : State → State} (n : ℕ) {i : ℕ}
    (other : ∀ k ≠ i, A.entry k = B.entry k) (changed : f (A.entry i) = B.entry i) :
    (A.states n).modify i f = B.states n := by
  apply ext_getElem?
  intro k
  rw [getElem?_modify]
  rcases k.lt_or_ge n with inside | outside
  · rw [A.getElem?_states inside, B.getElem?_states inside]
    rcases eq_or_ne i k with rfl | ne
    · simp [changed]
    · simp [ne, other k ne.symm]
  · rw [getElem?_eq_none (by simpa using outside),
      getElem?_eq_none (by simpa using outside)]
    rfl

theorem states_init (n : ℕ) : init.states n = List.replicate n State.init := by
  rw [states, show init.entry = fun _ => State.init from rfl, map_const', length_range]

end Selection

variable {V : Type} (p : Prune V)

/-- The distance of a candidate to the result at position `j`. -/
def distanceTo (neighbor : V) (j : ℕ) : F32 :=
  match p.candidates[j]? with
  | some candidate => p.resultDistance neighbor candidate.id
  | none => .max

/-- Comparison of candidate `i` with the results at the given positions, in order, up to the first
that occludes it: the factor found, and the count of comparisons made. -/
def examine (a : F32) (i : ℕ) (neighbor : V) (distance : F32) : List ℕ → F32 → ℕ → F32 × ℕ
  | [], factor, count => (factor, count)
  | j :: rest, factor, count =>
      if i ≤ j then examine a i neighbor distance rest factor (count + 1)
      else
        let updated := p.pruneKind.updateOccludeFactor distance (p.distanceTo neighbor j) factor a
        if a.lt updated then (updated, count + 1)
        else examine a i neighbor distance rest updated (count + 1)

/-- In a round with factor `a` the mark of a selected candidate is recognised, or no candidate is
looked at once there is one. -/
def Distinguishes (a : F32) : Prop := a.lt .max = true ∨ p.degree ≤ 1

namespace Selection

/-- What comes of comparing candidate `i` with the results it has not been compared with. -/
def examined (A : Selection) (a : F32) (i : ℕ) (neighbor : V) (distance : F32) : F32 × ℕ :=
  p.examine a i neighbor distance (A.selected.drop (A.checked i)) (A.factor i) (A.checked i)

/-- Candidate `i` is not to be looked at again. -/
def settle (A : Selection) (i : ℕ) : Selection :=
  { A with factor := update A.factor i .max }

/-- Candidate `i` is occluded. -/
def occlude (A : Selection) (i : ℕ) (examined : F32 × ℕ) : Selection where
  selected := A.selected
  factor := update A.factor i examined.1
  checked := update A.checked i examined.2

def select (A : Selection) (i : ℕ) (examined : F32 × ℕ) : Selection where
  selected := A.selected ++ [i]
  factor := update A.factor i .max
  checked := update A.checked i examined.2

def visit (a : F32) (A : Selection) (entry : Neighbor (Option V) × ℕ) : Selection :=
  if p.degree ≤ A.selected.length then A
  else if a.lt (A.factor entry.2) then A
  else match entry.1.id with
    | none => A.settle entry.2
    | some neighbor =>
        let examined := A.examined p a entry.2 neighbor entry.1.distance
        if a.lt examined.1 then A.occlude entry.2 examined else A.select entry.2 examined

def round (A : Selection) (a : F32) : Selection := p.candidates.zipIdx.foldl (visit p a) A

/-- What a visit can do. -/
inductive Visit (a : F32) (A : Selection) (entry : Neighbor (Option V) × ℕ) : Selection → Prop
  | full (full : p.degree ≤ A.selected.length) : Visit a A entry A
  | settled (room : A.selected.length < p.degree) (settled : a.lt (A.factor entry.2) = true) :
      Visit a A entry A
  | absent (room : A.selected.length < p.degree) (undecided : a.lt (A.factor entry.2) = false)
      (absent : entry.1.id = none) : Visit a A entry (A.settle entry.2)
  | occluded (room : A.selected.length < p.degree) (undecided : a.lt (A.factor entry.2) = false)
      (neighbor : V) (present : entry.1.id = some neighbor)
      (occluded : a.lt (A.examined p a entry.2 neighbor entry.1.distance).1 = true) :
      Visit a A entry (A.occlude entry.2 (A.examined p a entry.2 neighbor entry.1.distance))
  | selected (room : A.selected.length < p.degree) (undecided : a.lt (A.factor entry.2) = false)
      (neighbor : V) (present : entry.1.id = some neighbor)
      (passed : a.lt (A.examined p a entry.2 neighbor entry.1.distance).1 = false) :
      Visit a A entry (A.select entry.2 (A.examined p a entry.2 neighbor entry.1.distance))

theorem visit_spec (a : F32) (A : Selection) (entry : Neighbor (Option V) × ℕ) :
    Visit p a A entry (A.visit p a entry) := by
  unfold visit
  split
  · exact .full ‹_›
  · have room : A.selected.length < p.degree := by omega
    split
    · exact .settled room ‹_›
    · have undecided := eq_false_of_ne_true ‹¬ a.lt (A.factor entry.2) = true›
      split
      · exact .absent room undecided ‹_›
      · dsimp only
        split
        · exact .occluded room undecided _ ‹_› ‹_›
        · exact .selected room undecided _ ‹_› (eq_false_of_ne_true ‹_›)

variable {p} in
theorem visit_of_passed {a : F32} {A : Selection} (entry : Neighbor (Option V) × ℕ) {nbr : V}
    (room : A.selected.length < p.degree) (undecided : a.lt (A.factor entry.2) = false)
    (present : entry.1.id = some nbr)
    (passed : a.lt (A.examined p a entry.2 nbr entry.1.distance).1 = false) :
    A.visit p a entry =
      A.select entry.2 (A.examined p a entry.2 nbr entry.1.distance) := by
  unfold visit
  rw [if_neg (not_le.mpr room), if_neg (ne_true_of_eq_false undecided), present]
  exact if_neg (ne_true_of_eq_false passed)

/-- What the state array has room for. -/
structure Bounded (A : Selection) : Prop where
  inside : ∀ j ∈ A.selected, j < p.candidates.length
  length_le : A.selected.length ≤ p.candidates.length
  checked_le : ∀ i, A.checked i ≤ A.selected.length

/-- What keeps a selection within its bounds. -/
structure Sound (A : Selection) : Prop where
  inside : ∀ j ∈ A.selected, j < p.candidates.length
  distinct : A.selected.Nodup
  settled : ∀ j ∈ A.selected, A.factor j = .max
  checked_le : ∀ i, A.checked i ≤ A.selected.length

end Selection

variable {p} {narrow : ℕ → Option ℕ} {A : Selection} {a : F32} {i : ℕ}

theorem examine_count (nbr : V) (distance : F32) (results : List ℕ) (factor : F32)
    (count : ℕ) :
    (p.examine a i nbr distance results factor count).2 ≤ count + results.length := by
  induction results generalizing factor count with
  | nil => exact le_rfl
  | cons j rest ih =>
    unfold examine
    rw [length_cons]
    split
    · exact (ih factor (count + 1)).trans (by omega)
    · dsimp only
      split
      · dsimp only
        omega
      · exact (ih _ (count + 1)).trans (by omega)

namespace Selection

theorem Sound.length_le (sound : A.Sound p) : A.selected.length ≤ p.candidates.length := by
  have := (sound.distinct.subperm fun j mem =>
    mem_range.mpr (sound.inside j mem)).length_le
  rwa [length_range] at this

theorem Sound.bounded (sound : A.Sound p) : A.Bounded p :=
  ⟨sound.inside, sound.length_le, sound.checked_le⟩

theorem Bounded.examined_count (bounded : A.Bounded p) (nbr : V) (distance : F32) :
    (A.examined p a i nbr distance).2 ≤ A.selected.length := by
  have := examine_count (p := p) (a := a) (i := i) nbr distance
    (A.selected.drop (A.checked i)) (A.factor i) (A.checked i)
  have := bounded.checked_le i
  rw [length_drop] at *
  unfold examined
  omega

theorem sound_init : init.Sound p :=
  ⟨nofun, nodup_nil, nofun, fun _ => le_rfl⟩

theorem Sound.not_mem (sound : A.Sound p) (marks : p.Distinguishes a)
    (room : A.selected.length < p.degree) (undecided : a.lt (A.factor i) = false) :
    i ∉ A.selected := by
  intro mem
  rcases marks with below | single
  · rw [sound.settled i mem, below] at undecided
    cases undecided
  · have := length_pos_of_mem mem
    omega

theorem Sound.settled_update (sound : A.Sound p) (fresh : i ∉ A.selected) (factor : F32) :
    ∀ j ∈ A.selected, update A.factor i factor j = .max := by
  intro j mem
  rw [update_of_ne (by rintro rfl; exact fresh mem)]
  exact sound.settled j mem

theorem Bounded.checked_update (bounded : A.Bounded p) (nbr : V) (distance : F32) (j : ℕ) :
    update A.checked i (A.examined p a i nbr distance).2 j ≤ A.selected.length := by
  rcases eq_or_ne j i with rfl | ne
  · rw [update_self]
    exact bounded.examined_count nbr distance
  · rw [update_of_ne ne]
    exact bounded.checked_le j

/-- One visit keeps the bounds unless it selects more than there is room for. -/
theorem Bounded.visit (bounded : A.Bounded p) {entry : Neighbor (Option V) × ℕ}
    (inside : entry.2 < p.candidates.length) {B : Selection} (step : Visit p a A entry B)
    (short : B.selected.length ≤ p.candidates.length) : B.Bounded p := by
  cases step with
  | full => exact bounded
  | settled => exact bounded
  | absent => exact ⟨bounded.inside, short, bounded.checked_le⟩
  | occluded room undecided nbr present occluded =>
    exact ⟨bounded.inside, short, bounded.checked_update nbr _⟩
  | selected room undecided nbr present passed =>
    refine ⟨fun j mem => ?_, short,
      fun j => (bounded.checked_update nbr _ j).trans (by simp [select])⟩
    rcases mem_append.mp mem with mem | mem
    · exact bounded.inside j mem
    · exact mem_singleton.mp mem ▸ inside

/-- One visit keeps the bounds, whatever the pruning rule says. -/
theorem Sound.visit (sound : A.Sound p) (marks : p.Distinguishes a)
    {entry : Neighbor (Option V) × ℕ} (inside : entry.2 < p.candidates.length) {B : Selection}
    (step : Visit p a A entry B) : B.Sound p := by
  cases step with
  | full => exact sound
  | settled => exact sound
  | absent room undecided absent =>
    have fresh := sound.not_mem marks room undecided
    exact ⟨sound.inside, sound.distinct, sound.settled_update fresh .max, sound.checked_le⟩
  | occluded room undecided nbr present occluded =>
    have fresh := sound.not_mem marks room undecided
    exact ⟨sound.inside, sound.distinct, sound.settled_update fresh _,
      sound.bounded.checked_update nbr _⟩
  | selected room undecided nbr present passed =>
    have fresh := sound.not_mem marks room undecided
    refine ⟨?_, ?_, ?_,
      fun j => (sound.bounded.checked_update nbr _ j).trans (by simp [select])⟩
    · intro j mem
      rcases mem_append.mp mem with mem | mem
      · exact sound.inside j mem
      · exact mem_singleton.mp mem ▸ inside
    · exact sound.distinct.append (nodup_singleton _) (disjoint_singleton.mpr fresh)
    · intro j mem
      rcases mem_append.mp mem with mem | mem
      · exact sound.settled_update fresh _ j mem
      · rw [mem_singleton.mp mem]
        exact update_self ..

/-- What the inner loop stores on the way. -/
def recheck (A : Selection) (i count : ℕ) : Selection :=
  { A with checked := update A.checked i count }

theorem recheck_recheck (A : Selection) (m count : ℕ) :
    (A.recheck i m).recheck i count = A.recheck i count := by
  simp [recheck]

theorem modify_lastChecked (A : Selection) (n count : ℕ) :
    (A.states n).modify i ({ · with lastChecked := count }) = (A.recheck i count).states n :=
  modify_states n (fun k ne => by simp [entry, recheck, ne])
    (by simp [entry, recheck])

theorem modify_occludeFactor (A : Selection) (n count : ℕ) (factor : F32) :
    ((A.recheck i count).states n).modify i ({ · with occludeFactor := factor }) =
      (A.occlude i (factor, count)).states n :=
  modify_states n (fun k ne => by simp [entry, recheck, occlude, ne])
    (by simp [entry, recheck, occlude])

theorem modify_neighbor (A : Selection) (n : ℕ) (examined : F32 × ℕ) :
    ((A.occlude i (.max, examined.2)).states n).modify A.selected.length ({ · with neighbor := i }) =
      (A.select i examined).states n := by
  refine modify_states n (fun k ne => ?_) ?_
  · have named : A.selected.getD k 0 = (A.selected ++ [i]).getD k 0 := by
      rcases Nat.lt_or_ge k A.selected.length with before | after
      · rw [getD_append _ _ _ _ before]
      · rw [getD_eq_default _ _ after, getD_eq_default]
        rw [length_append, length_singleton]
        omega
    simp only [entry, occlude, select, named]
  · simp [entry, occlude, select]

end Selection

/-- Positions and counts that the run stores fit. -/
def Fits (narrow : ℕ → Option ℕ) (p : Prune V) : Prop :=
  ∀ m ≤ p.candidates.length, narrow m = some m

open Selection

/-- The inner loop. -/
theorem compare_eq (fits : Fits narrow p) (bounded : A.Bounded p) (neighbor : V) (distance : F32)
    (fuel m : ℕ) (factor : F32) (count : ℕ) (within : count ≤ A.selected.length)
    (enough : A.selected.length < count + fuel) :
    ∃ stored, compare narrow p a i neighbor distance A.selected.length fuel
        ⟨(A.recheck i m).states p.candidates.length, factor, count⟩ =
      some ⟨(A.recheck i stored).states p.candidates.length,
        (p.examine a i neighbor distance (A.selected.drop count) factor count).1,
        (p.examine a i neighbor distance (A.selected.drop count) factor count).2⟩ := by
  induction fuel generalizing m factor count with
  | zero => omega
  | succ fuel ih =>
    rcases within.eq_or_lt with done | more
    · refine ⟨m, ?_⟩
      rw [done, drop_length]
      exact if_pos rfl
    · have bound := bounded.length_le
      have inside := bounded.inside _ (getElem_mem more)
      have read : ((A.recheck i m).states p.candidates.length)[count]? =
          some ((A.recheck i m).entry count) :=
        getElem?_states _ (by omega)
      have named : ((A.recheck i m).entry count).neighbor = A.selected[count] := by
        simp [entry, recheck, more]
      have stepped := fits (count + 1) (by omega)
      unfold compare
      rw [if_neg more.ne, read, drop_eq_getElem_cons more, examine]
      simp only [bind_eq_bind, bind_some, stepped, named]
      split
      · rw [modify_lastChecked, recheck_recheck]
        exact ih (count + 1) factor (count + 1) more (by omega)
      · have candidate : p.candidates[A.selected[count]]? = some p.candidates[A.selected[count]] :=
          getElem?_eq_getElem inside
        simp only [candidate, bind_some, distanceTo]
        split
        · exact ⟨m, rfl⟩
        · exact ih m _ (count + 1) more (by omega)

theorem compare_examined (fits : Fits narrow p) (bounded : A.Bounded p) (nbr : V)
    (distance : F32) {fuel : ℕ} (enough : p.candidates.length < fuel) :
    ∃ stored, compare narrow p a i nbr distance A.selected.length fuel
        ⟨A.states p.candidates.length, (A.entry i).occludeFactor, (A.entry i).lastChecked⟩ =
      some ⟨(A.recheck i stored).states p.candidates.length,
        (A.examined p a i nbr distance).1, (A.examined p a i nbr distance).2⟩ := by
  have unchanged : A.recheck i (A.checked i) = A := by
    simp [recheck]
  have ran := compare_eq (a := a) (i := i) fits bounded nbr distance fuel (A.checked i)
    (A.factor i) (A.checked i) (bounded.checked_le i) (by have := bounded.length_le; omega)
  rwa [unchanged] at ran

/-- One visit of the code is one visit of the selection that its state stands for, or writes past the
end of the state array. -/
theorem visit_eq (fits : Fits narrow p) (bounded : A.Bounded p) {fuel : ℕ}
    (enough : p.candidates.length < fuel) {entry : Neighbor (Option V) × ℕ}
    (inside : entry.2 < p.candidates.length) :
    visit narrow p fuel a (A.encode p.candidates.length) entry =
      if (A.visit p a entry).selected.length ≤ p.candidates.length then
        some ((A.visit p a entry).encode p.candidates.length)
      else none := by
  obtain ⟨candidate, i⟩ := entry
  have step := visit_spec p a A (candidate, i)
  generalize A.visit p a (candidate, i) = B at step
  have read : (A.encode p.candidates.length).states[i]? = some (A.entry i) :=
    A.getElem?_states inside
  have short := bounded.length_le
  cases step with
  | full full =>
    rw [if_pos short]
    exact if_pos full
  | settled room settled =>
    rw [if_pos short]
    refine (if_neg (not_le.mpr room)).trans ?_
    rw [read]
    exact if_pos settled
  | absent room undecided absent =>
    rw [if_pos (show (A.settle i).selected.length ≤ _ from short)]
    refine (if_neg (not_le.mpr room)).trans ?_
    rw [read]
    refine (if_neg (ne_true_of_eq_false undecided)).trans ?_
    rw [absent]
    refine congrArg (fun states => some (Progress.mk states A.selected.length)) ?_
    exact modify_states _
      (fun k ne => by simp [entry, settle, ne])
      (by simp [entry, settle])
  | occluded room undecided nbr present occluded =>
    obtain ⟨stored, compared⟩ := compare_examined fits bounded nbr
      candidate.distance enough
    rw [if_pos (show (A.occlude i _).selected.length ≤ _ from short)]
    refine (if_neg (not_le.mpr room)).trans ?_
    rw [read]
    refine (if_neg (ne_true_of_eq_false undecided)).trans ?_
    rw [present]
    dsimp only [encode]
    rw [compared, bind_eq_bind, bind_some, if_pos occluded,
      modify_lastChecked, recheck_recheck, modify_occludeFactor]
    rfl
  | selected room undecided nbr present passed =>
    obtain ⟨stored, compared⟩ := compare_examined fits bounded nbr
      candidate.distance enough
    have grown : (A.select i (A.examined p a i nbr candidate.distance)).selected.length =
        A.selected.length + 1 := by simp [select]
    refine (if_neg (not_le.mpr room)).trans ?_
    rw [read]
    refine (if_neg (ne_true_of_eq_false undecided)).trans ?_
    rw [present]
    dsimp only [encode]
    rw [compared, bind_eq_bind, bind_some, if_neg (ne_true_of_eq_false passed),
      modify_lastChecked, recheck_recheck, modify_occludeFactor,
      fits i inside.le, bind_eq_bind]
    rcases short.eq_or_lt with full | free
    · rw [if_neg (by omega), getElem?_eq_none (by simp [full])]
      rfl
    · rw [if_pos (by omega), getElem?_states _ free, bind_some]
      rw [modify_neighbor]
      simp [select]

theorem visit_of_sound (fits : Fits narrow p) (sound : A.Sound p) (marks : p.Distinguishes a)
    {fuel : ℕ} (enough : p.candidates.length < fuel) {entry : Neighbor (Option V) × ℕ}
    (inside : entry.2 < p.candidates.length) :
    visit narrow p fuel a (A.encode p.candidates.length) entry =
      some ((A.visit p a entry).encode p.candidates.length) := by
  rw [visit_eq fits sound.bounded enough inside, if_pos]
  exact (sound.visit marks inside (visit_spec ..)).length_le

theorem lt_of_mem_zipIdx {entry : Neighbor (Option V) × ℕ} (mem : entry ∈ p.candidates.zipIdx) :
    entry.2 < p.candidates.length := by
  have := snd_lt_add_of_mem_zipIdx mem
  omega

theorem Selection.Sound.round (sound : A.Sound p) (marks : p.Distinguishes a) :
    (A.round p a).Sound p :=
  foldlRecOn _ _ sound fun _ kept _ mem =>
    kept.visit marks (lt_of_mem_zipIdx mem) (visit_spec ..)

theorem round_eq (fits : Fits narrow p) (sound : A.Sound p) (marks : p.Distinguishes a) {fuel : ℕ}
    (enough : p.candidates.length < fuel) :
    round narrow p fuel a (A.encode p.candidates.length) =
      some ((A.round p a).encode p.candidates.length) :=
  (foldlM_eq_some_foldl (P := fun A => A.Sound p) sound fun _ mem _ sound =>
    ⟨visit_of_sound fits sound marks enough (lt_of_mem_zipIdx mem),
      sound.visit marks (lt_of_mem_zipIdx mem) (visit_spec ..)⟩).1

/-! ## The schedule of the factors -/

variable (p) in
/-- The factor of round `r`. -/
def factor : ℕ → F32
  | 0 => .one
  | r + 1 => p.nextAlpha (factor r)

variable (p) in
/-- The round whose factor is `alpha`. -/
noncomputable def lastRound : ℕ := sInf {r | (p.factor r).eq p.alpha = true}

variable (p) in
/-- What the rounds select. -/
noncomputable def prune : Selection :=
  (range (p.lastRound + 1)).foldl (fun A r => A.round p (p.factor r)) .init

theorem key_one : F32.one.key = 0x3f800000 := by decide

theorem key_maxIncrement : maxIncrement.key = 0x3f99999a := by decide

/-- From one round to the next the factor grows, but not past `alpha`. -/
theorem nextAlpha_spec (number : p.alpha.isNan = false) (from_one : F32.one.key ≤ a.key)
    (to_alpha : a.key < p.alpha.key) :
    (p.nextAlpha a).isNan = false ∧ a.key < (p.nextAlpha a).key ∧
      (p.nextAlpha a).key ≤ p.alpha.key := by
  have top := F32.key_le_of_number number
  obtain ⟨increment, increment_key⟩ :=
    F32.key_minNum number (show maxIncrement.isNan = false by decide)
  have infinity_key : F32.infinity.key = 0x7f800000 := by decide
  have one_key := key_one
  have max_key := key_maxIncrement
  obtain ⟨product, grown⟩ := F32.key_lt_mul (y := p.incrementFactor) from_one
    (by omega) (by unfold incrementFactor; omega) (by unfold incrementFactor; omega)
  obtain ⟨next, next_key⟩ := F32.key_minNum product number
  exact ⟨next, by unfold nextAlpha; omega, by unfold nextAlpha; omega⟩

/-- Up to the largest increment there is one more round after the first, with factor `alpha`. -/
theorem nextAlpha_one (number : p.alpha.isNan = false) (small : p.alpha.key ≤ maxIncrement.key) :
    p.nextAlpha .one = p.alpha := by
  have increment : p.incrementFactor = p.alpha := by
    have larger : maxIncrement.lt p.alpha = false := by
      rw [← Bool.not_eq_true, F32.lt_iff (by decide) number]
      omega
    simp [incrementFactor, F32.minNum, number, larger]
  rw [nextAlpha, increment, F32.one_mul number]
  simp [F32.minNum]

/-- A factor that the schedule of a run for `alpha` may have. -/
structure Scheduled (alpha a : F32) : Prop where
  number : a.isNan = false
  place : a = .one ∨ a.key = alpha.key ∨ (F32.one.key ≤ a.key ∧ a.key ≤ alpha.key)

theorem scheduled_one : Scheduled p.alpha .one := ⟨by decide, .inl rfl⟩

theorem Scheduled.next (number : p.alpha.isNan = false) (scheduled : Scheduled p.alpha a)
    (unfinished : a.eq p.alpha = false) : Scheduled p.alpha (p.nextAlpha a) := by
  have ne : a.key ≠ p.alpha.key := by
    rwa [← Bool.not_eq_true, F32.eq_iff scheduled.number number] at unfinished
  rcases lt_or_ge p.alpha.key F32.one.key with small | large
  · have first : a = .one := by
      rcases scheduled.place with first | last | ⟨low, high⟩
      · exact first
      · exact absurd last ne
      · omega
    have one_key := key_one
    have max_key := key_maxIncrement
    rw [first, nextAlpha_one number (by omega)]
    exact ⟨number, .inr (.inl rfl)⟩
  · have between : F32.one.key ≤ a.key ∧ a.key < p.alpha.key := by
      rcases scheduled.place with rfl | last | ⟨low, high⟩
      · omega
      · exact absurd last ne
      · omega
    obtain ⟨next, grown, bounded⟩ := nextAlpha_spec number between.1 between.2
    exact ⟨next, .inr (.inr ⟨by omega, bounded⟩)⟩

theorem isNan_of_lt_max (below : p.alpha.lt .max = true) : p.alpha.isNan = false := by
  cases nan : p.alpha.isNan with
  | false => rfl
  | true => simp [F32.lt, nan] at below

theorem Scheduled.lt_max (below : p.alpha.lt .max = true) (scheduled : Scheduled p.alpha a) :
    a.lt .max = true := by
  have max_key : F32.max.key = 0x7f7fffff := by decide
  have one_key := key_one
  rw [F32.lt_iff (isNan_of_lt_max below) (by decide)] at below
  rw [F32.lt_iff scheduled.number (by decide)]
  rcases scheduled.place with rfl | last | ⟨low, high⟩ <;> omega

theorem Scheduled.ge_zero (from_one : p.alpha.ge .one = true) (scheduled : Scheduled p.alpha a) :
    a.ge .zero = true := by
  have zero_key : F32.zero.key = 0 := by decide
  have one_key := key_one
  have := (F32.ge_eq_true.mp from_one).2.2
  refine F32.ge_eq_true.mpr ⟨scheduled.number, by decide, ?_⟩
  rcases scheduled.place with rfl | last | ⟨low, high⟩ <;> omega

variable (number : p.alpha.isNan = false)
include number

theorem scheduled_factor {r : ℕ}
    (unfinished : ∀ k < r, (p.factor k).eq p.alpha = false) : Scheduled p.alpha (p.factor r) := by
  induction r with
  | zero => exact scheduled_one
  | succ r ih =>
    exact (ih fun k earlier => unfinished k (by omega)).next number (unfinished r (by omega))

/-- The factors reach `alpha`. -/
theorem exists_last : ∃ r, (p.factor r).eq p.alpha = true := by
  by_contra never
  have unfinished : ∀ r, (p.factor r).eq p.alpha = false := fun r =>
    eq_false_of_ne_true fun reached => never ⟨r, reached⟩
  have ne : ∀ r, (p.factor r).key ≠ p.alpha.key := by
    intro r same
    have scheduled := scheduled_factor number (fun k _ => unfinished k) (r := r)
    exact never ⟨r, (F32.eq_iff scheduled.number number).mpr same⟩
  rcases lt_or_ge p.alpha.key F32.one.key with small | large
  · have one_key := key_one
    have max_key := key_maxIncrement
    exact ne 1 (congrArg F32.key (nextAlpha_one number (by omega)))
  · have grows : ∀ r : ℕ, F32.one.key + r ≤ (p.factor r).key ∧ (p.factor r).key < p.alpha.key := by
      intro r
      induction r with
      | zero => exact ⟨by simp [factor], lt_of_le_of_ne large (ne 0)⟩
      | succ r ih =>
        obtain ⟨-, grown, bounded⟩ :=
          nextAlpha_spec number (by omega) ih.2
        refine ⟨?_, lt_of_le_of_ne bounded (ne (r + 1))⟩
        change _ ≤ (p.nextAlpha (p.factor r)).key
        omega
    have := grows (p.alpha.key - F32.one.key).toNat
    omega

theorem factor_lastRound :
    (p.factor p.lastRound).eq p.alpha = true :=
  Nat.sInf_mem (exists_last number)

omit number in
theorem factor_of_lt {r : ℕ} (earlier : r < p.lastRound) : (p.factor r).eq p.alpha = false :=
  eq_false_of_ne_true fun reached => Nat.notMem_of_lt_sInf earlier reached

theorem scheduled_of_le {r : ℕ} (scheduled : r ≤ p.lastRound) :
    Scheduled p.alpha (p.factor r) :=
  scheduled_factor number fun _ earlier => factor_of_lt (by omega)

omit number

/-- No factor of the schedule reaches the mark of a settled candidate. -/
theorem factor_lt_max (below : p.alpha.lt .max = true) {r : ℕ} (scheduled : r ≤ p.lastRound) :
    (p.factor r).lt .max = true :=
  (scheduled_of_le (isNan_of_lt_max below) scheduled).lt_max below

variable (p) in
/-- What a run needs so as not to select a candidate twice, and to end. -/
structure Marked : Prop where
  number : p.alpha.isNan = false
  below : p.alpha.lt .max = true ∨ p.degree ≤ 1

theorem marked_of_lt (below : p.alpha.lt .max = true) : p.Marked :=
  ⟨isNan_of_lt_max below, .inl below⟩

theorem Marked.distinguishes (marked : p.Marked) {r : ℕ} (scheduled : r ≤ p.lastRound) :
    p.Distinguishes (p.factor r) :=
  marked.below.imp_left fun below => factor_lt_max below scheduled

/-! ## The whole run -/

theorem Selection.round_full (full : p.degree ≤ A.selected.length) (a : F32) : A.round p a = A :=
  List.foldlRecOn (motive := fun B => B = A) _ _ rfl fun _ same _ _ => by
    rw [same]
    exact if_pos full

theorem foldl_round_full (full : p.degree ≤ A.selected.length) (schedule : List ℕ) :
    schedule.foldl (fun A r => A.round p (p.factor r)) A = A :=
  List.foldlRecOn (motive := fun B => B = A) _ _ rfl fun _ same _ _ => by
    rw [same]
    exact round_full full _

theorem rounds_eq (fits : Fits narrow p) (marked : p.Marked) {fuel : ℕ}
    (enough : p.candidates.length < fuel) (count : ℕ) {r left : ℕ} (sound : A.Sound p)
    (last : r + count = p.lastRound) (many : count < left) :
    rounds narrow p fuel left (p.factor r) (A.encode p.candidates.length) =
      some (((range' r (count + 1)).foldl (fun A r => A.round p (p.factor r)) A).encode
        p.candidates.length) := by
  induction count generalizing r left A with
  | zero =>
    obtain ⟨left, rfl⟩ : ∃ k, left = k + 1 := ⟨left - 1, by omega⟩
    obtain rfl : r = p.lastRound := by omega
    rcases lt_or_ge A.selected.length p.degree with room | full
    · unfold rounds
      refine (if_pos room).trans ?_
      rw [round_eq fits sound (marked.distinguishes le_rfl) enough, factor_lastRound marked.number]
      rfl
    · rw [foldl_round_full full]
      exact if_neg (not_lt.mpr full)
  | succ count ih =>
    obtain ⟨left, rfl⟩ : ∃ k, left = k + 1 := ⟨left - 1, by omega⟩
    have marks := marked.distinguishes (show r ≤ p.lastRound by omega)
    rcases lt_or_ge A.selected.length p.degree with room | full
    · unfold rounds
      refine (if_pos room).trans ?_
      rw [round_eq fits sound marks enough,
        factor_of_lt (show r < p.lastRound by omega), range'_succ]
      refine ih (r := r + 1) (sound.round marks) ?_ ?_ <;> omega
    · rw [foldl_round_full full]
      exact if_neg (not_lt.mpr full)

/-- With enough fuel the run ends, whatever becomes of values that do not fit. -/
theorem robustPrune_eq (fits : Fits narrow p) (marked : p.Marked) {fuel : ℕ}
    (inner : p.candidates.length < fuel) (outer : p.lastRound < fuel) :
    robustPrune narrow p fuel p.freshStates = some (p.prune.encode p.candidates.length) := by
  have ran := rounds_eq fits marked inner p.lastRound (r := 0) sound_init (by omega) outer
  rw [← range_eq_range'] at ran
  rw [freshStates, ← states_init]
  exact ran

/-! ## What is selected -/

namespace Selection

/-- Which positions a selection may hold. -/
structure Within (p : Prune V) (A : Selection) : Prop where
  length_le : A.selected.length ≤ p.degree
  present : ∀ j ∈ A.selected, ∃ candidate ∈ p.candidates[j]?, candidate.id.isSome = true

theorem within_init : init.Within p := ⟨Nat.zero_le _, nofun⟩

theorem Within.visit (within : A.Within p) {entry : Neighbor (Option V) × ℕ}
    (mem : entry ∈ p.candidates.zipIdx) {B : Selection} (step : Visit p a A entry B) :
    B.Within p := by
  cases step with
  | full => exact within
  | settled => exact within
  | absent => exact ⟨within.length_le, within.present⟩
  | occluded => exact ⟨within.length_le, within.present⟩
  | selected room undecided nbr present passed =>
    refine ⟨by simpa [select] using room, fun j chosen => ?_⟩
    rcases mem_append.mp chosen with earlier | this
    · exact within.present j earlier
    · rw [mem_singleton.mp this]
      exact ⟨entry.1, mem_zipIdx_iff_getElem?.mp mem, by rw [present]; rfl⟩

theorem Within.round (within : A.Within p) : (A.round p a).Within p :=
  foldlRecOn _ _ within fun _ kept _ mem => kept.visit mem (visit_spec ..)

/-- What is selected stays selected. -/
theorem Visit.grows {entry : Neighbor (Option V) × ℕ} {B : Selection} (step : Visit p a A entry B) :
    A.selected <+: B.selected := by
  cases step with
  | selected => exact prefix_append ..
  | _ => exact prefix_rfl

theorem foldl_visit_grows (entries : List (Neighbor (Option V) × ℕ)) :
    A.selected <+: (entries.foldl (visit p a) A).selected :=
  foldlRecOn (motive := fun (B : Selection) => A.selected <+: B.selected) _ _ prefix_rfl
    fun _ kept _ _ => kept.trans (visit_spec ..).grows

/-- Absent candidates change nothing for the others. -/
theorem foldl_visit_absent {entries : List (Neighbor (Option V) × ℕ)}
    (absent : ∀ entry ∈ entries, entry.1.id = none ∧ entry.2 ≠ i) :
    (entries.foldl (visit p a) A).selected = A.selected ∧
      (entries.foldl (visit p a) A).factor i = A.factor i := by
  refine List.foldlRecOn 
    (motive := fun (B : Selection) => B.selected = A.selected ∧ B.factor i = A.factor i) _ _
    ⟨rfl, rfl⟩ fun B kept entry mem => ?_
  obtain ⟨missing, ne⟩ := absent entry mem
  have step := visit_spec p a B entry
  generalize B.visit p a entry = C at step
  cases step with
  | full => exact kept
  | settled => exact kept
  | absent => exact ⟨kept.1, by simpa [settle, ne.symm] using kept.2⟩
  | occluded room undecided nbr present => simp [missing] at present
  | selected room undecided nbr present => simp [missing] at present

theorem one_lt_zero : F32.one.lt .zero = false := by decide

/-- The first present candidate is selected in the first round. -/
theorem mem_round_one (degree : 0 < p.degree) {candidate : Neighbor (Option V)} {nbr : V}
    (stored : p.candidates[i]? = some candidate) (present : candidate.id = some nbr)
    (first : ∀ k < i, ∀ earlier ∈ p.candidates[k]?, earlier.id = none) :
    i ∈ (init.round p .one).selected := by
  have entry : p.candidates.zipIdx[i]? = some (candidate, i) := by
    rw [getElem?_zipIdx, stored]
    simp
  obtain ⟨inside, read⟩ := List.getElem?_eq_some_iff.mp entry
  have split : p.candidates.zipIdx =
      p.candidates.zipIdx.take i ++ (candidate, i) :: p.candidates.zipIdx.drop (i + 1) := by
    rw [← read, getElem_cons_drop, take_append_drop]
  have absent : ∀ entry ∈ p.candidates.zipIdx.take i, entry.1.id = none ∧ entry.2 ≠ i := by
    intro entry earlier
    obtain ⟨k, before, rfl⟩ := mem_take_iff_getElem.mp earlier
    have : k < i := by omega
    simp only [getElem_zipIdx, Nat.zero_add]
    exact ⟨first k this _ (getElem?_eq_getElem _), this.ne⟩
  obtain ⟨nothing, unseen⟩ := foldl_visit_absent (p := p) (A := init) (a := .one) absent
  rw [round, split, foldl_append, foldl_cons]
  refine (foldl_visit_grows _).subset ?_
  generalize (p.candidates.zipIdx.take i).foldl (visit p .one) init = B at nothing unseen
  change B.selected = [] at nothing
  change B.factor i = .zero at unseen
  have passed : F32.one.lt (B.examined p .one i nbr candidate.distance).1 = false := by
    rw [examined, nothing, drop_nil, unseen]
    exact one_lt_zero
  have room : B.selected.length < p.degree := by rwa [nothing]
  have undecided : F32.one.lt (B.factor i) = false := by rw [unseen, one_lt_zero]
  rw [visit_of_passed (candidate, i) room undecided present passed]
  exact mem_append_right _ (mem_singleton_self i)

end Selection

theorem sound_prune (marked : p.Marked) : p.prune.Sound p := by
  refine List.foldlRecOn _ _ sound_init fun A sound r mem => ?_
  exact sound.round (marked.distinguishes (by have := mem_range.mp mem; omega))

theorem within_prune : p.prune.Within p :=
  List.foldlRecOn _ _ within_init fun _ within _ _ => within.round

/-- The first present candidate is selected. -/
theorem mem_prune (degree : 0 < p.degree) {candidate : Neighbor (Option V)} {nbr : V}
    (stored : p.candidates[i]? = some candidate) (present : candidate.id = some nbr)
    (first : ∀ k < i, ∀ earlier ∈ p.candidates[k]?, earlier.id = none) :
    i ∈ p.prune.selected := by
  rw [prune, range_succ_eq_map, foldl_cons]
  refine foldlRecOn (motive := fun (A : Selection) => i ∈ A.selected) _ _
    (mem_round_one degree stored present first) fun A chosen r _ => ?_
  exact (foldl_visit_grows _).subset chosen

/-- The code's record of a selection. -/
theorem selected_encode (bounded : A.Bounded p) :
    (A.encode p.candidates.length).selected = A.selected := by
  apply ext_getElem?
  intro k
  have bound := bounded.length_le
  simp only [Progress.selected, encode, getElem?_map]
  rcases k.lt_or_ge A.selected.length with inside | outside
  · rw [getElem?_take_of_lt inside, A.getElem?_states (by omega)]
    simp [entry, inside]
  · rw [getElem?_eq_none (by simpa using Or.inl outside), getElem?_eq_none outside]
    rfl

end DiskAnn.Prune
