import DiskAnn.Graph.PruneSafety

/-! # The pruning rules that RobustPrune applies

With the triangle inequality rule the stored factors and the early exits change nothing: the run selects
what a plain scan selects that compares every candidate with every result in every round. With the
occluding rule they do: a comparison is not made again in a later round, and what is left of it is a
factor that only reaches as far as the round it was made in.
-/

namespace DiskAnn.Prune

open List Function Selection F32

variable {V : Type} (p : Prune V)

/-- The vector of the candidate at position `j`. -/
def vector (j : ℕ) : Option V := p.candidates[j]?.bind (·.id)

/-! ## The triangle inequality rule -/

/-- No result before position `i` stands in the way of a candidate there. -/
def admits (a : F32) (selected : List ℕ) (i : ℕ) (neighbor : V) (distance : F32) : Bool :=
  selected.all fun j => i ≤ j || (p.vector j).all fun result =>
    F32.zero.lt (p.computeDistance neighbor result) &&
      a.ge (distance.div (p.computeDistance neighbor result))

/-- The plain scan: no state but the positions selected. -/
def plainVisit (a : F32) (selected : List ℕ) (entry : Neighbor (Option V) × ℕ) : List ℕ :=
  match entry.1.id with
  | none => selected
  | some neighbor =>
      if selected.length < p.degree ∧ entry.2 ∉ selected ∧
          p.admits a selected entry.2 neighbor entry.1.distance = true then
        selected ++ [entry.2]
      else selected

def plainRound (a : F32) (selected : List ℕ) : List ℕ :=
  p.candidates.zipIdx.foldl (p.plainVisit a) selected

/-- The plain scan in rounds with the factors `1`, `min (factor * min (alpha, 1.2), alpha)`, up to
`alpha`. -/
noncomputable def plainPrune : List ℕ :=
  (range (p.lastRound + 1)).foldl (fun selected r => p.plainRound (p.factor r) selected) []

/-- Candidates in the order of their distances. -/
def Sorted : Prop := p.candidates.Pairwise fun x y => y.distance.ge x.distance = true

/-- Candidates sorted by their distances, with distances between them that are not negative. -/
structure Measured : Prop where
  sorted : p.Sorted
  number : ∀ candidate ∈ p.candidates, candidate.distance.isNan = false
  nonneg : ∀ v w, (p.computeDistance v w).ge .zero = true
  /-- No quotient of two infinities is formed. -/
  quotient : ∀ candidate ∈ p.candidates, candidate.distance.isFinite = true ∨
    ∀ neighbor ∈ candidate.id, ∀ w, (p.computeDistance neighbor w).isFinite = true

/-- Result `j` stands in the way of a candidate in a round with factor `b`. -/
def Occludes (neighbor : V) (distance b : F32) (j : ℕ) : Prop :=
  (p.distanceTo neighbor j).eq .zero = true ∨
    b.lt (distance.div (p.distanceTo neighbor j)) = true

/-- The stored factor of candidate `i` stands for its comparisons with `seen`, in every round. -/
structure StandsFor (i : ℕ) (neighbor : V) (distance factor : F32) (seen : List ℕ) : Prop where
  number : factor.isNan = false
  occluded_iff : ∀ b : F32, b.ge .zero = true → b.lt .max = true →
    (b.lt factor = true ↔ ∃ j ∈ seen, j < i ∧ p.Occludes neighbor distance b j)

variable {p} {a factor distance : F32} {i : ℕ} {neighbor : V} {seen rest : List ℕ}
  {j : ℕ} {candidate : Neighbor (Option V)} {A : Selection}

theorem StandsFor.nil : p.StandsFor i neighbor distance .zero [] := by
  refine ⟨by decide, fun b nonneg below => ⟨fun less => ?_, fun ⟨j, mem, _⟩ => nomatch mem⟩⟩
  have := (ge_eq_true.mp nonneg).2.2
  have := (lt_eq_true.mp less).2.2
  omega

variable (stands : p.StandsFor i neighbor distance factor seen)
include stands

theorem StandsFor.snoc_later (later : i ≤ j) : p.StandsFor i neighbor distance factor (seen ++ [j]) := by
  refine ⟨stands.number, fun b nonneg below => (stands.occluded_iff b nonneg below).trans ?_⟩
  constructor
  · rintro ⟨k, mem, found⟩
    exact ⟨k, mem_append_left _ mem, found⟩
  · rintro ⟨k, mem, before, found⟩
    rcases mem_append.mp mem with mem | mem
    · exact ⟨k, mem, before, found⟩
    · rw [mem_singleton.mp mem] at before
      omega

variable (kind : p.pruneKind = .triangleInequality)
include kind

/-- One comparison more. -/
theorem StandsFor.snoc (before : j < i)
    (number : (p.distanceTo neighbor j).eq .zero = false →
      (distance.div (p.distanceTo neighbor j)).isNan = false) :
    p.StandsFor i neighbor distance (p.pruneKind.updateOccludeFactor distance
      (p.distanceTo neighbor j) factor a) (seen ++ [j]) := by
  have split : ∀ b, (∃ k ∈ seen ++ [j], k < i ∧ p.Occludes neighbor distance b k) ↔
      (∃ k ∈ seen, k < i ∧ p.Occludes neighbor distance b k) ∨
        p.Occludes neighbor distance b j := by
    intro b
    simp only [mem_append, mem_singleton, or_and_right, exists_or, exists_eq_left,
      before, true_and]
  rw [kind, PruneKind.updateOccludeFactor]
  cases touching : (p.distanceTo neighbor j).eq .zero with
  | true =>
    rw [if_pos rfl]
    refine ⟨by decide, fun b nonneg below => ?_⟩
    rw [split]
    exact iff_of_true below (.inr (.inl touching))
  | false =>
    obtain ⟨larger, larger_key⟩ := key_maxNum stands.number (number touching)
    rw [if_neg Bool.false_ne_true]
    refine ⟨larger, fun b nonneg below => ?_⟩
    have hb := (ge_eq_true.mp nonneg).1
    rw [split, ← stands.occluded_iff b nonneg below,
      lt_iff hb larger, larger_key, lt_iff hb stands.number, Occludes, touching,
      lt_iff hb (number touching)]
    simp

/-- Comparison with results that are left, up to the first that occludes the candidate. -/
theorem StandsFor.examine (number : ∀ j ∈ rest, (p.distanceTo neighbor j).eq .zero = false →
      (distance.div (p.distanceTo neighbor j)).isNan = false) :
    ∃ more left, rest = more ++ left ∧
      p.StandsFor i neighbor distance
        (p.examine a i neighbor distance rest factor seen.length).1 (seen ++ more) ∧
      (p.examine a i neighbor distance rest factor seen.length).2 = (seen ++ more).length ∧
      (left = [] ∨ a.lt (p.examine a i neighbor distance rest factor seen.length).1 = true) := by
  induction rest generalizing seen factor with
  | nil => exact ⟨[], [], rfl, by simpa [Prune.examine] using stands, by simp [Prune.examine],
      .inl rfl⟩
  | cons j rest ih =>
    have others := fun k mem => number k (mem_cons_of_mem j mem)
    have appended : ∀ more, seen ++ [j] ++ more = seen ++ j :: more := fun more =>
      (append_cons seen j more).symm
    have counted : seen.length + 1 = (seen ++ [j]).length := by simp
    unfold Prune.examine
    split
    · obtain ⟨more, left, rfl, res⟩ := ih (stands.snoc_later ‹i ≤ j›) others
      rw [counted]
      exact ⟨j :: more, left, rfl, appended more ▸ res⟩
    · have next := stands.snoc (a := a) kind (not_le.mp ‹¬ i ≤ j›) (number j mem_cons_self)
      dsimp only
      split
      · exact ⟨[j], rest, rfl, next, counted, .inr ‹_›⟩
      · obtain ⟨more, left, rfl, res⟩ := ih next others
        rw [counted]
        exact ⟨j :: more, left, rfl, appended more ▸ res⟩

omit kind stands

theorem distanceTo_eq {result : V} (present : p.vector j = some result) :
    p.distanceTo neighbor j = p.computeDistance neighbor result := by
  obtain ⟨candidate, stored, named⟩ := Option.bind_eq_some_iff.mp present
  simp [distanceTo, stored, resultDistance, named]

variable (measured : p.Measured)
include measured

theorem Measured.isNan_div (mem : candidate ∈ p.candidates)
    (named : candidate.id = some neighbor) (present : (p.vector j).isSome = true)
    (apart : (p.distanceTo neighbor j).eq .zero = false) :
    (candidate.distance.div (p.distanceTo neighbor j)).isNan = false := by
  obtain ⟨res, present⟩ := Option.isSome_iff_exists.mp present
  rw [distanceTo_eq present] at apart ⊢
  obtain ⟨number, -, nonneg⟩ := ge_eq_true.mp (measured.nonneg neighbor res)
  refine F32.isNan_div (measured.number candidate mem) number (.inr ?_) ?_
  · intro zero
    have same : (p.computeDistance neighbor res).eq .zero = true :=
      eq_eq_true.mpr ⟨number, by decide, by simp [key_eq, zero]; decide⟩
    rw [same] at apart
    cases apart
  · rcases measured.quotient candidate mem with finite | finite
    · exact .inl (by simp [isFinite] at finite; omega)
    · have finite := finite neighbor named res
      exact .inr (by simp [isFinite] at finite; omega)

/-- The results in the way of a candidate are those that the plain scan finds. -/
theorem admits_iff (mem : candidate ∈ p.candidates)
    (named : candidate.id = some neighbor) {selected : List ℕ}
    (present : ∀ j ∈ selected, (p.vector j).isSome = true) (ha : a.isNan = false) :
    p.admits a selected i neighbor candidate.distance = true ↔
      ¬ ∃ j ∈ selected, j < i ∧ p.Occludes neighbor candidate.distance a j := by
  simp only [admits, all_eq_true, not_exists, not_and, Bool.or_eq_true, decide_eq_true_eq]
  refine forall₂_congr fun j chosen => ?_
  have apart_number := measured.isNan_div mem named (present j chosen)
  obtain ⟨res, stored⟩ := Option.isSome_iff_exists.mp (present j chosen)
  obtain ⟨number, -, nonneg⟩ := ge_eq_true.mp (measured.nonneg neighbor res)
  rw [Occludes, distanceTo_eq stored] at *
  rw [stored, ← not_lt, or_iff_not_imp_left, not_not]
  refine imp_congr_right fun _ => ?_
  rw [Option.all_some, Bool.and_eq_true, not_or, Bool.not_eq_true, Bool.not_eq_true]
  cases touching : (p.computeDistance neighbor res).eq .zero with
  | true =>
    have := (eq_eq_true.mp touching).2.2
    have : zero.lt (p.computeDistance neighbor res) = false := by
      rw [← Bool.not_eq_true, lt_iff (by decide) number]
      omega
    simp [this]
  | false =>
    have ne : (p.computeDistance neighbor res).key ≠ zero.key := by
      rwa [← Bool.not_eq_true, eq_iff number (by decide)] at touching
    have pos : zero.lt (p.computeDistance neighbor res) = true := by
      rw [lt_iff (by decide) number]
      omega
    simp only [pos]
    rw [ge_iff ha (apart_number touching), ← Bool.not_eq_true,
      lt_iff ha (apart_number touching), not_lt]

/-- The selection and the plain scan agree. -/
structure Agrees (p : Prune V) (A : Selection) (selected : List ℕ) : Prop where
  same : A.selected = selected
  stands : ∀ i candidate neighbor, p.candidates[i]? = some candidate →
    candidate.id = some neighbor → i ∉ A.selected →
    p.StandsFor i neighbor candidate.distance (A.factor i) (A.selected.take (A.checked i))

include kind

theorem Agrees.examined (sound : A.Sound p) (chosen : ∀ j ∈ A.selected, (p.vector j).isSome = true)
    (mem : candidate ∈ p.candidates) (named : candidate.id = some neighbor)
    (stands : p.StandsFor i neighbor candidate.distance (A.factor i)
      (A.selected.take (A.checked i))) :
    p.StandsFor i neighbor candidate.distance (A.examined p a i neighbor candidate.distance).1
        (A.selected.take (A.examined p a i neighbor candidate.distance).2) ∧
      (a.lt (A.examined p a i neighbor candidate.distance).1 = true ∨
        A.selected.take (A.examined p a i neighbor candidate.distance).2 = A.selected) := by
  have counted : (A.selected.take (A.checked i)).length = A.checked i := by
    simpa using sound.checked_le i
  have numbers : ∀ j ∈ A.selected.drop (A.checked i), (p.distanceTo neighbor j).eq .zero = false →
      (candidate.distance.div (p.distanceTo neighbor j)).isNan = false := fun j later =>
    measured.isNan_div mem named (chosen j (mem_of_mem_drop later))
  obtain ⟨more, left, rest, standing, reached, ended⟩ := stands.examine kind numbers
  rw [counted] at standing reached ended
  have parts : A.selected = (A.selected.take (A.checked i) ++ more) ++ left := by
    rw [append_assoc, ← rest, take_append_drop]
  have taken : A.selected.take (A.examined p a i neighbor candidate.distance).2 =
      A.selected.take (A.checked i) ++ more := by
    rw [Selection.examined, reached]
    generalize A.selected.take (A.checked i) = seen at parts
    rw [parts, take_left]
  refine ⟨taken ▸ standing, ?_⟩
  rcases ended with nothing | occluded
  · right
    rw [nothing, append_nil] at parts
    rw [taken, ← parts]
  · exact .inl occluded

omit measured kind in
theorem plainVisit_of_not {selected : List ℕ} {entry : Neighbor (Option V) × ℕ}
    (refused : ∀ neighbor, entry.1.id = some neighbor → selected.length < p.degree →
      entry.2 ∉ selected → p.admits a selected entry.2 neighbor entry.1.distance = false) :
    p.plainVisit a selected entry = selected := by
  unfold plainVisit
  split
  · rfl
  · rename_i neighbor present
    refine if_neg fun ⟨room, fresh, admitted⟩ => ?_
    rw [refused neighbor present room fresh] at admitted
    cases admitted

theorem Agrees.visit {selected : List ℕ}
    (sound : A.Sound p) (within : A.Within p) (nonneg : a.ge .zero = true)
    (below : a.lt .max = true) (agrees : p.Agrees A selected) {entry : Neighbor (Option V) × ℕ}
    (mem : entry ∈ p.candidates.zipIdx) :
    p.Agrees (A.visit p a entry) (p.plainVisit a selected entry) := by
  obtain ⟨candidate, i⟩ := entry
  have stored : p.candidates[i]? = some candidate := mem_zipIdx_iff_getElem?.mp mem
  have listed : candidate ∈ p.candidates := mem_of_getElem? stored
  have number := (ge_eq_true.mp nonneg).1
  have chosen : ∀ j ∈ A.selected, (p.vector j).isSome = true := fun j mem => by
    obtain ⟨other, found, present⟩ := within.present j mem
    rwa [vector, Option.mem_def.mp found]
  obtain ⟨rfl, stands⟩ := agrees
  have step := visit_spec p a A (candidate, i)
  generalize A.visit p a (candidate, i) = B at step
  cases step with
  | full full =>
    rw [plainVisit_of_not fun _ _ room => absurd room (not_lt.mpr full)]
    exact ⟨rfl, stands⟩
  | settled room settled =>
    rw [plainVisit_of_not]
    · exact ⟨rfl, stands⟩
    · intro neighbor present _ fresh
      obtain ⟨j, seen, found⟩ :=
        ((stands i candidate neighbor stored present fresh).occluded_iff a nonneg below).mp settled
      rw [← Bool.not_eq_true, admits_iff measured listed present chosen number, not_not]
      exact ⟨j, mem_of_mem_take seen, found⟩
  | absent room undecided absent =>
    change candidate.id = none at absent
    have missing : ∀ neighbor, candidate.id ≠ some neighbor := by simp [absent]
    rw [plainVisit_of_not fun neighbor present => absurd present (missing neighbor)]
    refine ⟨rfl, fun k other neighbor found present fresh => ?_⟩
    have ne : k ≠ i := by
      rintro rfl
      rw [stored] at found
      cases found
      exact missing neighbor present
    simpa [settle, ne] using stands k other neighbor found present fresh
  | occluded room undecided neighbor present occluded =>
    have fresh := sound.not_mem (.inl below) room undecided
    obtain ⟨standing, -⟩ := Agrees.examined kind measured sound chosen listed present
      (stands i candidate neighbor stored present fresh)
    rw [plainVisit_of_not]
    · refine ⟨rfl, fun k other named found called unchosen => ?_⟩
      rcases eq_or_ne k i with rfl | ne
      · rw [stored] at found
        cases found
        rw [present] at called
        cases called
        simpa [occlude] using standing
      · simpa [occlude, ne] using stands k other named found called unchosen
    · intro named called _ _
      obtain rfl := Option.some.inj (present.symm.trans called)
      obtain ⟨j, seen, found⟩ := (standing.occluded_iff a nonneg below).mp occluded
      rw [← Bool.not_eq_true, admits_iff measured listed present chosen number, not_not]
      exact ⟨j, mem_of_mem_take seen, found⟩
  | selected room undecided neighbor present passed =>
    have fresh := sound.not_mem (.inl below) room undecided
    obtain ⟨standing, ended⟩ := Agrees.examined kind measured sound chosen listed present
      (stands i candidate neighbor stored present fresh)
    have complete := ended.resolve_left (ne_true_of_eq_false passed)
    have admitted : p.admits a A.selected i neighbor candidate.distance = true := by
      rw [admits_iff measured listed present chosen number, ← complete,
        ← standing.occluded_iff a nonneg below]
      exact ne_true_of_eq_false passed
    have plain : p.plainVisit a A.selected (candidate, i) = A.selected ++ [i] := by
      unfold plainVisit
      rw [present]
      exact if_pos ⟨room, fresh, admitted⟩
    rw [plain]
    refine ⟨rfl, fun k other named found called unchosen => ?_⟩
    have ne : k ≠ i := by
      rintro rfl
      exact unchosen (mem_append_right _ (mem_singleton_self k))
    have earlier := stands k other named found called fun before =>
      unchosen (mem_append_left _ before)
    have kept : (A.selected ++ [i]).take (A.checked k) = A.selected.take (A.checked k) :=
      take_append_of_le_length (sound.checked_le k)
    simpa [select, ne, kept] using earlier

/-- What a run of rounds keeps, next to the plain scan. -/
structure InStep (p : Prune V) (A : Selection) (selected : List ℕ) : Prop where
  sound : A.Sound p
  within : A.Within p
  agrees : p.Agrees A selected

theorem InStep.round {selected : List ℕ}
    (nonneg : a.ge .zero = true) (below : a.lt .max = true)
    (inStep : p.InStep A selected) : p.InStep (A.round p a) (p.plainRound a selected) := by
  refine foldl_rel inStep fun entry mem A selected ⟨sound, within, agrees⟩ => ?_
  have step := visit_spec p a A entry
  exact ⟨sound.visit (.inl below) (lt_of_mem_zipIdx mem) step, within.visit mem step,
    agrees.visit kind measured sound within nonneg below mem⟩

theorem prune_selected (from_one : p.alpha.ge .one = true) (below : p.alpha.lt .max = true) :
    p.prune.selected = p.plainPrune := by
  have start : p.InStep .init [] := ⟨sound_init, within_init, rfl,
    fun _ _ _ _ _ _ => StandsFor.nil⟩
  have final : p.InStep p.prune p.plainPrune := by
    refine foldl_rel start fun r mem A selected inStep => ?_
    have scheduled : r ≤ p.lastRound := by
      have := mem_range.mp mem
      omega
    exact inStep.round kind measured
      ((scheduled_of_le (isNan_of_lt_max below) scheduled).ge_zero from_one)
      (factor_lt_max below scheduled)
  exact final.agrees.same

variable (p) in
/-- `robust_prune` ends, and has selected what the plain scan selects. -/
def SelectsPlain : Prop :=
  ∃ enough, ∀ fuel ≥ enough, ∃ s, robustPrune wrapping p fuel p.freshStates = some s ∧
    s.selected = p.plainPrune

omit kind measured

theorem lonely_measured (alpha : F32) : (lonely alpha).Measured where
  sorted := pairwise_singleton ..
  number := by simp [lonely]; decide
  nonneg _ _ := by simp only [lonely]; decide
  quotient := by simp [lonely]; decide

/-- A round with factor `a` begins in state `s`. -/
inductive RoundStarts (p : Prune V) (fuel : ℕ) : F32 → Progress → Prop
  | first : RoundStarts p fuel .one ⟨p.freshStates, 0⟩
  | next {a : F32} {s t : Progress} (started : RoundStarts p fuel a s) (room : s.found < p.degree)
      (ran : round wrapping p fuel a s = some t) (unfinished : a.eq p.alpha = false) :
      RoundStarts p fuel (p.nextAlpha a) t

/-- The candidate at `j` occludes the one at `k` in a round with factor `a`. -/
def OccludedBy (p : Prune V) (a : F32) (j k : ℕ) : Prop :=
  ∃ candidate ∈ p.candidates[k]?, ∃ neighbor ∈ candidate.id, ∃ result ∈ p.vector j,
    (p.computeDistance neighbor result).lt (a.mul candidate.distance) = true

/-- What is selected in a round is not occluded, with the factor of that round, by a candidate that
precedes it and was selected before. The fuel is enough for the inner loop. -/
def KeepsOccludingRule (p : Prune V) : Prop :=
  ∀ fuel > p.candidates.length, ∀ a s t, p.RoundStarts fuel a s → s.found < p.degree →
    round wrapping p fuel a s = some t →
    ∀ m n j k, m < n → s.found ≤ n → t.selected[m]? = some j → t.selected[n]? = some k → j < k →
      ¬ p.OccludedBy a j k

/-- The factor left by a comparison of the first round. -/
def forgetful : F32 := F32.one.add PruneKind.occludingMask

theorem one_lt_forgetful : one.lt forgetful = true := by decide +kernel

variable {A : Selection}

/-- In the first round a candidate either passes every comparison or is left with the factor
`forgetful`. -/
def ComparedOnce (p : Prune V) (i : ℕ) (neighbor : V) (distance : F32) (results : List ℕ) (factor : F32) :
    Prop :=
  factor = forgetful ∨ factor = .zero ∧
    ∀ j ∈ results, j < i → (p.distanceTo neighbor j).lt (one.mul distance) = false

theorem examine_occluding (kind : p.pruneKind = .occluding) (i : ℕ) (neighbor : V) (distance : F32)
    (results : List ℕ) (count : ℕ) : p.ComparedOnce i neighbor distance results
      (p.examine .one i neighbor distance results .zero count).1 := by
  induction results generalizing count with
  | nil => exact .inr ⟨rfl, nofun⟩
  | cons j results ih =>
    have extend (passed : j < i → (p.distanceTo neighbor j).lt (one.mul distance) = false) :
        p.ComparedOnce i neighbor distance (j :: results)
          (p.examine .one i neighbor distance results .zero (count + 1)).1 :=
      (ih (count + 1)).imp_right fun ⟨zero, others⟩ => ⟨zero, forall_mem_cons.mpr ⟨passed, others⟩⟩
    unfold Prune.examine
    split
    · exact extend fun before => by omega
    · rw [kind, PruneKind.updateOccludeFactor]
      cases close : (p.distanceTo neighbor j).lt (one.mul distance) with
      | true => exact .inl rfl
      | false => exact extend fun _ => close

/-- The first round, after the candidates before position `i`. -/
structure FirstRound (p : Prune V) (i : ℕ) (A : Selection) : Prop where
  unseen : ∀ k, i ≤ k → A.factor k = .zero ∧ A.checked k = 0
  seen : A.selected.length < p.degree → ∀ k < i, A.factor k = .max ∨ A.factor k = forgetful
  rule : ∀ m n j k : ℕ, m < n → A.selected[m]? = some j → A.selected[n]? = some k → j < k →
    ¬ p.OccludedBy .one j k

theorem FirstRound.update_seen {f : ℕ → F32} (seen : ∀ k < i, f k = .max ∨ f k = forgetful)
    {value : F32} (settled : value = .max ∨ value = forgetful) :
    ∀ k < i + 1, update f i value k = .max ∨ update f i value k = forgetful := by
  intro k within
  rcases eq_or_ne k i with rfl | ne
  · rwa [update_self]
  · rw [update_of_ne ne]
    exact seen k (by omega)

theorem FirstRound.visit (kind : p.pruneKind = .occluding) (first : p.FirstRound i A)
    (stored : p.candidates[i]? = some candidate) :
    p.FirstRound (i + 1) (A.visit p .one (candidate, i)) := by
  obtain ⟨zero, unchecked⟩ := first.unseen i le_rfl
  have later : ∀ k, i + 1 ≤ k → k ≠ i := fun k _ => by omega
  have compared := fun neighbor =>
    examine_occluding kind i neighbor candidate.distance A.selected 0
  have examined : ∀ neighbor, A.examined p .one i neighbor candidate.distance =
      p.examine .one i neighbor candidate.distance A.selected .zero 0 := fun neighbor => by
    rw [examined, zero, unchecked, drop_zero]
  have step := visit_spec p .one A (candidate, i)
  generalize A.visit p .one (candidate, i) = B at step
  cases step with
  | full full =>
    exact ⟨fun k above => first.unseen k (by omega), fun room => by omega, first.rule⟩
  | settled room settled =>
    rw [show A.factor i = .zero from zero] at settled
    cases settled
  | absent room undecided absent =>
    refine ⟨fun k above => ?_, fun _ => FirstRound.update_seen (first.seen room) (.inl rfl),
      first.rule⟩
    simpa [settle, later k above] using first.unseen k (by omega)
  | occluded room undecided neighbor present occluded =>
    rw [examined] at occluded
    have factor : (A.examined p .one i neighbor candidate.distance).1 = forgetful := by
      rw [examined]
      refine (compared neighbor).resolve_right fun passed => ?_
      rw [passed.1] at occluded
      cases occluded
    refine ⟨fun k above => ?_, fun _ => FirstRound.update_seen (first.seen room) (.inr factor),
      first.rule⟩
    simpa [occlude, later k above] using first.unseen k (by omega)
  | selected room undecided neighbor present passed =>
    rw [examined] at passed
    have apart : ∀ j ∈ A.selected, j < i →
        (p.distanceTo neighbor j).lt (one.mul candidate.distance) = false := by
      refine ((compared neighbor).resolve_left fun forgotten => ?_).2
      rw [forgotten] at passed
      cases passed
    refine ⟨fun k above => ?_, fun _ => FirstRound.update_seen (first.seen room) (.inl rfl), ?_⟩
    · simpa [select, later k above] using first.unseen k (by omega)
    · intro m n j k before selected_m selected_n smaller
      simp only [select] at selected_m selected_n
      obtain ⟨inside, -⟩ := List.getElem?_eq_some_iff.mp selected_n
      rw [length_append, length_singleton] at inside
      rw [getElem?_append_left (by omega)] at selected_m
      rcases Nat.lt_or_ge n A.selected.length with earlier | last
      · rw [getElem?_append_left earlier] at selected_n
        exact first.rule m n j k before selected_m selected_n smaller
      · obtain rfl : n = A.selected.length := by omega
        obtain rfl : i = k := by simpa using selected_n
        rintro ⟨other, found, named, called, res, present_j, occluded⟩
        obtain rfl := Option.some.inj (stored.symm.trans found)
        obtain rfl := Option.some.inj (present.symm.trans called)
        have := apart j (mem_of_getElem? selected_m) smaller
        rw [distanceTo_eq present_j, occluded] at this
        cases this

theorem FirstRound.round (kind : p.pruneKind = .occluding) :
    p.FirstRound p.candidates.length (init.round p .one) := by
  have start : p.FirstRound 0 .init :=
    ⟨fun _ _ => ⟨rfl, rfl⟩, fun _ _ below => absurd below (Nat.not_lt_zero _), nofun⟩
  have ran := foldl_zipIdx_rec p.candidates
    0 start fun i candidate A stored first => by
      rw [Nat.zero_add] at *
      exact first.visit kind stored
  rwa [Nat.zero_add] at ran

/-- A round that finds every candidate settled selects nothing. -/
theorem round_settled (settled : ∀ k < p.candidates.length, a.lt (A.factor k) = true) :
    A.round p a = A := by
  refine List.foldlRecOn (motive := fun B => B = A) _ _ rfl fun B same entry mem => ?_
  rw [same, Selection.visit]
  split
  · rfl
  · exact if_pos (settled entry.2 (lt_of_mem_zipIdx mem))

theorem freshStates_eq : (⟨p.freshStates, 0⟩ : Progress) =
    init.encode p.candidates.length := by
  rw [freshStates, ← states_init]
  rfl

/-- Below `forgetful` there are at most two rounds. -/
theorem RoundStarts.cases_of_lt (small : p.candidates.length ≤ 65535)
    (below : p.alpha.lt forgetful = true) {fuel : ℕ} (enough : p.candidates.length < fuel)
    {s : Progress} (started : p.RoundStarts fuel a s) :
    (a = .one ∧ s = init.encode p.candidates.length) ∨
      (a = p.alpha ∧ s = (init.round p .one).encode p.candidates.length) := by
  obtain ⟨number, -, less⟩ := lt_eq_true.mp below
  induction started with
  | first => exact .inl ⟨rfl, freshStates_eq⟩
  | next started room ran unfinished ih =>
    rcases ih with ⟨rfl, rfl⟩ | ⟨rfl, -⟩
    · have top : forgetful.key ≤ maxIncrement.key := by decide +kernel
      rw [round_eq (fits_wrapping small) sound_init (.inl (by decide)) enough] at ran
      exact .inr ⟨nextAlpha_one number (by omega), (Option.some.inj ran).symm⟩
    · rw [eq_eq_true.mpr ⟨number, number, rfl⟩] at unfinished
      cases unfinished

theorem keepsOccludingRule_of_lt (kind : p.pruneKind = .occluding)
    (small : p.candidates.length ≤ 65535) (below : p.alpha.lt forgetful = true) :
    p.KeepsOccludingRule := by
  intro fuel enough a s t started room ran m n j k before fresh selected_m selected_n smaller
  have one_below : one.lt .max = true := by decide
  have sound : (init.round p .one).Sound p := sound_init.round (.inl one_below)
  have first := FirstRound.round kind
  rcases started.cases_of_lt small below enough with ⟨rfl, rfl⟩ | ⟨rfl, rfl⟩
  · rw [round_eq (fits_wrapping small) sound_init (.inl one_below) enough] at ran
    cases ran
    rw [selected_encode sound.bounded] at selected_m selected_n
    exact first.rule m n j k before selected_m selected_n smaller
  · -- every candidate was settled in the first round, so nothing is selected in this one
    obtain ⟨number, -, less⟩ := lt_eq_true.mp below
    have top : forgetful.key < max.key := by decide +kernel
    have alpha_below : p.alpha.lt .max = true :=
      lt_eq_true.mpr ⟨number, by decide, by omega⟩
    have idle : (init.round p .one).round p p.alpha = init.round p .one := by
      refine round_settled fun k inside => ?_
      rcases first.seen room k inside with marked | left
      · rw [marked]
        exact alpha_below
      · rw [left]
        exact below
    rw [round_eq (fits_wrapping small) sound (.inl alpha_below) enough, idle] at ran
    cases ran
    rw [selected_encode sound.bounded] at selected_n
    obtain ⟨inside, -⟩ := List.getElem?_eq_some_iff.mp selected_n
    exact absurd fresh (not_le.mpr inside)

/-- Two candidates at the same place, which occlude each other. -/
def twins (alpha : F32) : Prune Unit where
  candidates := [⟨some (), .one⟩, ⟨some (), .one⟩]
  degree := 2
  alpha := alpha
  pruneKind := .occluding
  computeDistance _ _ := .zero

theorem twins_round (alpha : F32) (s : Progress) :
    round wrapping (twins alpha) 3 a s =
      (visit wrapping (twins alpha) 3 a s (⟨some (), .one⟩, 0)).bind
        (visit wrapping (twins alpha) 3 a · (⟨some (), .one⟩, 1)) := by
  simp [round, show (twins alpha).candidates.zipIdx = [(⟨some (), .one⟩, 0), (⟨some (), .one⟩, 1)]
    from rfl]

theorem twins_first (alpha : F32) :
    round wrapping (twins alpha) 3 .one ⟨(twins alpha).freshStates, 0⟩ =
      some ⟨[⟨.max, 0, 0⟩, ⟨forgetful, 1, 0⟩], 1⟩ := by
  have two : (twins alpha).degree = 2 := rfl
  have first : visit wrapping (twins alpha) 3 .one ⟨(twins alpha).freshStates, 0⟩
      (⟨some (), .one⟩, 0) = some ⟨[⟨.max, 0, 0⟩, ⟨.zero, 0, 0⟩], 1⟩ := by
    have compared : compare wrapping (twins alpha) .one 0 () .one 0 3
        ⟨[⟨.zero, 0, 0⟩, ⟨.zero, 0, 0⟩], .zero, 0⟩ =
          some ⟨[⟨.zero, 0, 0⟩, ⟨.zero, 0, 0⟩], .zero, 0⟩ := if_pos rfl
    rw [show (twins alpha).freshStates = [⟨.zero, 0, 0⟩, ⟨.zero, 0, 0⟩] from rfl]
    simp [visit, two, compared, wrapping, one_lt_zero]
  have second : visit wrapping (twins alpha) 3 .one ⟨[⟨.max, 0, 0⟩, ⟨.zero, 0, 0⟩], 1⟩
      (⟨some (), .one⟩, 1) = some ⟨[⟨.max, 0, 0⟩, ⟨forgetful, 1, 0⟩], 1⟩ := by
    have updated : (twins alpha).pruneKind.updateOccludeFactor .one
        ((twins alpha).resultDistance () (some ())) .zero .one = forgetful := by
      change PruneKind.occluding.updateOccludeFactor .one .zero .zero .one = forgetful
      decide +kernel
    have stored : (twins alpha).candidates[0]? = some ⟨some (), .one⟩ := rfl
    have compared : compare wrapping (twins alpha) .one 1 () .one 1 3
        ⟨[⟨.max, 0, 0⟩, ⟨.zero, 0, 0⟩], .zero, 0⟩ =
          some ⟨[⟨.max, 0, 0⟩, ⟨.zero, 0, 0⟩], forgetful, 1⟩ := by
      rw [compare]
      simp [wrapping, stored, updated, one_lt_forgetful]
    simp [visit, two, compared, one_lt_zero, one_lt_forgetful]
  rw [twins_round, first, Option.bind_some, second]

theorem twins_second {alpha : F32} (reached : a.lt forgetful = false) (below : a.lt .max = true) :
    round wrapping (twins alpha) 3 a ⟨[⟨.max, 0, 0⟩, ⟨forgetful, 1, 0⟩], 1⟩ =
      some ⟨[⟨.max, 0, 0⟩, ⟨.max, 1, 1⟩], 2⟩ := by
  have two : (twins alpha).degree = 2 := rfl
  have first : visit wrapping (twins alpha) 3 a ⟨[⟨.max, 0, 0⟩, ⟨forgetful, 1, 0⟩], 1⟩
      (⟨some (), .one⟩, 0) = some ⟨[⟨.max, 0, 0⟩, ⟨forgetful, 1, 0⟩], 1⟩ := by
    simp [visit, below]
  have second : visit wrapping (twins alpha) 3 a ⟨[⟨.max, 0, 0⟩, ⟨forgetful, 1, 0⟩], 1⟩
      (⟨some (), .one⟩, 1) = some ⟨[⟨.max, 0, 0⟩, ⟨.max, 1, 1⟩], 2⟩ := by
    -- the only result has been compared with in the first round
    have compared : compare wrapping (twins alpha) a 1 () .one 1 3
        ⟨[⟨.max, 0, 0⟩, ⟨forgetful, 1, 0⟩], forgetful, 1⟩ =
          some ⟨[⟨.max, 0, 0⟩, ⟨forgetful, 1, 0⟩], forgetful, 1⟩ := if_pos rfl
    simp [visit, two, compared, wrapping, reached]
  rw [twins_round, first, Option.bind_some, second]

theorem twins_breaks {alpha : F32} (number : alpha.isNan = false)
    (reached : alpha.lt forgetful = false) : ¬ (twins alpha).KeepsOccludingRule := by
  intro keeps
  have number_forgetful : forgetful.isNan = false := by decide +kernel
  have low : 0 < forgetful.key := by decide +kernel
  have middle : forgetful.key ≤ maxIncrement.key := by decide +kernel
  have high : maxIncrement.key < max.key := by decide
  have above : forgetful.key ≤ alpha.key := by
    rw [← Bool.not_eq_true, lt_iff number number_forgetful, not_lt] at reached
    exact reached
  -- the second round has the factor `min (alpha, 1.2)`
  obtain ⟨increment, increment_key⟩ :=
    key_minNum number (show maxIncrement.isNan = false by decide)
  obtain ⟨next, next_key⟩ := key_minNum increment number
  have factor : (twins alpha).nextAlpha .one = (alpha.minNum maxIncrement).minNum alpha := by
    change (one.mul (alpha.minNum maxIncrement)).minNum alpha = _
    rw [one_mul increment]
  have unfinished : one.eq alpha = false := eq_eq_false_of_lt one_lt_forgetful reached
  have started : (twins alpha).RoundStarts 3 ((twins alpha).nextAlpha .one) _ :=
    .next .first Nat.zero_lt_two (twins_first alpha) unfinished
  rw [factor] at started
  refine keeps 3 (Nat.lt_succ_self 2) _ _ _ started Nat.one_lt_two (twins_second ?_ ?_) 0 1 0 1
    Nat.zero_lt_one le_rfl rfl rfl Nat.zero_lt_one ?_
  · rw [← Bool.not_eq_true, lt_iff next number_forgetful]
    omega
  · rw [lt_iff next (by decide)]
    omega
  · refine ⟨_, rfl, (), rfl, (), rfl, ?_⟩
    change zero.lt (((alpha.minNum maxIncrement).minNum alpha).mul .one) = true
    rw [mul_one next, lt_iff (by decide) next, show zero.key = 0 by decide]
    omega

end DiskAnn.Prune
