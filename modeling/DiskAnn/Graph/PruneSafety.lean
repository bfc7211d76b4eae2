import DiskAnn.Graph.PruneRun

/-! # Safety of RobustPrune

A run stays within its bounds as long as every factor of its schedule is below the mark of a settled
candidate. When a factor reaches the mark, a candidate is selected once more, into an entry past the end
of the state array if there is no other.
-/

namespace DiskAnn.Prune

open List Function Selection Option F32

variable {V : Type} {p : Prune V} {narrow : ℕ → Option ℕ} {A : Selection} {a : F32} {i : ℕ}

theorem fits_wrapping (small : p.candidates.length ≤ 65535) : Fits wrapping p := by
  intro m inside
  rw [wrapping, Nat.mod_eq_of_lt (by omega)]

theorem fits_checked (small : p.candidates.length ≤ 65535) : Fits checked p := fun _ inside =>
  if_pos (by omega)

variable (p) in
/-- `robust_prune` ends without an index out of bounds and without a value that does not fit into a
`u16`, and records distinct positions of present candidates, among them the first one. -/
def Safe : Prop :=
  ∃ (enough : ℕ) (s : Progress),
    (∀ fuel ≥ enough, robustPrune wrapping p fuel p.freshStates = some s ∧
      robustPrune checked p fuel p.freshStates = some s) ∧
    s.found ≤ p.degree ∧ s.selected.length = s.found ∧ s.selected.Nodup ∧
    (∀ j ∈ s.selected, ∃ candidate ∈ p.candidates[j]?, candidate.id.isSome = true) ∧
    (0 < p.degree → ∀ i, ∀ candidate ∈ p.candidates[i]?, candidate.id.isSome = true →
      (∀ k < i, ∀ earlier ∈ p.candidates[k]?, earlier.id = none) → i ∈ s.selected)

theorem safe_of_lt_max (below : p.alpha.lt .max = true) (small : p.candidates.length ≤ 65535) :
    p.Safe := by
  have marked := marked_of_lt below
  have sound := sound_prune marked
  have recorded := selected_encode sound.bounded
  refine ⟨max (p.candidates.length + 1) (p.lastRound + 1), p.prune.encode p.candidates.length,
    fun fuel enough => ⟨robustPrune_eq (fits_wrapping small) marked (by omega) (by omega),
      robustPrune_eq (fits_checked small) marked (by omega) (by omega)⟩,
    within_prune.length_le, ?_, ?_, ?_, ?_⟩
  · rw [recorded]
    rfl
  · rw [recorded]
    exact sound.distinct
  · rw [recorded]
    exact within_prune.present
  · rw [recorded]
    intro degree i candidate stored present first
    obtain ⟨nbr, named⟩ := isSome_iff_exists.mp present
    exact mem_prune degree stored named first

/-- One candidate, to be given two neighbors. -/
def lonely (alpha : F32) : Prune Unit where
  candidates := [⟨some (), .zero⟩]
  degree := 2
  alpha := alpha
  pruneKind := .triangleInequality
  computeDistance _ _ := .zero

/-- A round whose factor reaches the mark selects the candidate again, into an entry past the end. -/
theorem lonely_rounds {alpha : F32} (large : alpha.lt .max = false) (fuel left : ℕ) (a : F32) :
    rounds wrapping (lonely alpha) fuel left a ⟨[⟨.max, 0, 0⟩], 1⟩ = none := by
  induction left generalizing a with
  | zero => rfl
  | succ left ih =>
    cases below : a.lt .max with
    | true =>
      have idle : round wrapping (lonely alpha) fuel a ⟨[⟨.max, 0, 0⟩], 1⟩ =
          some ⟨[⟨.max, 0, 0⟩], 1⟩ := by
        simp [round, lonely, visit, below]
      have unfinished := eq_eq_false_of_lt below large
      refine (if_pos (show 1 < 2 by decide)).trans ?_
      rw [idle]
      exact (if_neg (ne_true_of_eq_false unfinished)).trans (ih _)
    | false =>
      have failed : round wrapping (lonely alpha) fuel a ⟨[⟨.max, 0, 0⟩], 1⟩ = none := by
        rcases fuel with - | - | fuel
        · simp [round, lonely, visit, below, compare]
        · simp [round, lonely, visit, below, compare]
        · simp [round, lonely, visit, below, compare, wrapping]
      refine (if_pos (show 1 < 2 by decide)).trans ?_
      rw [failed]
      rfl

theorem lonely_robustPrune {alpha : F32} (large : alpha.lt .max = false) (fuel : ℕ) :
    robustPrune wrapping (lonely alpha) fuel (lonely alpha).freshStates = none := by
  cases fuel with
  | zero => rfl
  | succ fuel =>
    have unfinished := eq_eq_false_of_lt (show one.lt .max = true by decide) large
    change rounds wrapping (lonely alpha) (fuel + 1) (fuel + 1) .one ⟨[.init], 0⟩ = none
    refine (if_pos (show 0 < 2 by decide)).trans ?_
    exact (if_neg (ne_true_of_eq_false unfinished)).trans (lonely_rounds large _ _ _)

/-- The mark `f32::MAX` of a settled candidate has to be above every factor of the schedule. -/
theorem robustPrune_safe_iff {alpha : F32} (finite : alpha.isFinite = true) :
    (∀ {V : Type} (p : Prune V), p.alpha = alpha → p.candidates.length ≤ 65535 → p.Safe) ↔
      alpha ≠ .max := by
  rw [← F32.lt_max_iff finite]
  constructor
  · intro safe
    by_contra large
    obtain ⟨enough, s, ran, -⟩ := safe (lonely alpha) rfl (by simp [lonely])
    have ended := (ran enough le_rfl).1
    rw [lonely_robustPrune (eq_false_of_ne_true large)] at ended
    cases ended
  · rintro below V p rfl small
    exact safe_of_lt_max below small

theorem robustPrune_safe_iff_default :
    maxIncrement.isFinite = true ∧
      ((∀ {V : Type} (p : Prune V), p.alpha = maxIncrement → p.candidates.length ≤ 65535 → p.Safe) ↔
        maxIncrement ≠ .max) :=
  ⟨by decide, robustPrune_safe_iff (by decide)⟩

theorem robustPrune_fails_at_max : ¬ (lonely .max).Safe := by
  rintro ⟨enough, s, ran, -⟩
  have ended := (ran enough le_rfl).1
  rw [lonely_robustPrune (by decide)] at ended
  cases ended

/-! ## Runs in which nothing is occluded -/

variable {fuel : ℕ} {s : Progress} {candidate : Neighbor (Option V)}

variable (p) in
/-- Every two candidates are infinitely far apart. -/
structure Unoccluded : Prop where
  kind : p.pruneKind = .occluding
  far : ∀ v w, p.computeDistance v w = .infinity

theorem infinity_lt (x : F32) : infinity.lt x = false := by
  rw [← Bool.not_eq_true, lt_eq_true]
  rintro ⟨-, number, less⟩
  have top := key_le_of_number number
  have : infinity.key = 0x7f800000 := by decide
  omega

theorem examine_unoccluded (unoccluded : p.Unoccluded) (nbr : V) (distance : F32)
    {results : List ℕ}
    (present : ∀ j ∈ results, ∃ candidate ∈ p.candidates[j]?, candidate.id.isSome = true)
    (factor : F32) (count : ℕ) :
    (p.examine a i nbr distance results factor count).1 = factor := by
  induction results generalizing count with
  | nil => rfl
  | cons j results ih =>
    have others := ih fun k mem => present k (mem_cons_of_mem j mem)
    obtain ⟨candidate, stored, named⟩ := present j mem_cons_self
    obtain ⟨res, named⟩ := isSome_iff_exists.mp named
    have distant : p.distanceTo nbr j = .infinity := by
      simp [distanceTo, mem_def.mp stored, resultDistance, named, unoccluded.far]
    unfold examine
    rw [distant, unoccluded.kind, PruneKind.updateOccludeFactor, infinity_lt,
      if_neg Bool.false_ne_true]
    dsimp only
    split
    · exact others _
    · split
      · rfl
      · exact others _

namespace Selection

theorem Within.examined (within : A.Within p) (unoccluded : p.Unoccluded) (nbr : V)
    (distance : F32) : (A.examined p a i nbr distance).1 = A.factor i :=
  examine_unoccluded unoccluded nbr distance
    (fun j mem => within.present j (mem_of_mem_drop mem)) _ _

/-- Once marked, a candidate stays marked. -/
theorem Visit.factor_eq_max (within : A.Within p) (unoccluded : p.Unoccluded)
    {entry : Neighbor (Option V) × ℕ} {B : Selection} (step : Visit p a A entry B)
    (marked : A.factor i = .max) : B.factor i = .max := by
  have update : update A.factor entry.2 max i = .max := by
    rcases eq_or_ne i entry.2 with rfl | other
    · exact update_self ..
    · rwa [update_of_ne other]
  cases step with
  | full => exact marked
  | settled => exact marked
  | absent => exact update
  | occluded room undecided nbr present occluded =>
    rw [within.examined unoccluded, undecided] at occluded
    cases occluded
  | selected => exact update

/-- The state of a run that selects its first candidate again and again. -/
structure Repeating (p : Prune V) (A : Selection) : Prop where
  bounded : A.Bounded p
  within : A.Within p
  nonempty : A.selected ≠ []
  marked : A.factor 0 = .max

theorem Repeating.visit (unoccluded : p.Unoccluded) (repeating : A.Repeating p)
    {entry : Neighbor (Option V) × ℕ} (mem : entry ∈ p.candidates.zipIdx) {B : Selection}
    (step : Visit p a A entry B) (short : B.selected.length ≤ p.candidates.length) :
    B.Repeating p where
  bounded := repeating.bounded.visit (lt_of_mem_zipIdx mem) step short
  within := repeating.within.visit mem step
  nonempty := fun empty => repeating.nonempty (prefix_nil.mp (empty ▸ step.grows))
  marked := step.factor_eq_max repeating.within unoccluded repeating.marked

/-- A round whose factor reaches the mark selects the first candidate again. -/
theorem Repeating.length_round (unoccluded : p.Unoccluded) (repeating : A.Repeating p)
    (reached : a.lt .max = false) (room : A.selected.length < p.degree)
    {candidate : Neighbor (Option V)} {nbr : V} (stored : p.candidates[0]? = some candidate)
    (present : candidate.id = some nbr) :
    A.selected.length + 1 ≤ (A.round p a).selected.length := by
  have undecided : a.lt (A.factor 0) = false := by rw [repeating.marked, reached]
  have first : p.candidates.zipIdx = (candidate, 0) :: p.candidates.zipIdx.tail := by
    obtain ⟨rest, split⟩ : ∃ rest, p.candidates = candidate :: rest := by
      cases listed : p.candidates with
      | nil => simp [listed] at stored
      | cons other rest => exact ⟨rest, by simpa [listed] using stored⟩
    rw [split]
    rfl
  have passed : a.lt (A.examined p a 0 nbr candidate.distance).1 = false := by
    rw [repeating.within.examined unoccluded, undecided]
  rw [round, first, foldl_cons, visit_of_passed (candidate, 0) room undecided present passed]
  refine le_trans ?_ (foldl_visit_grows _).length_le
  simp [select]

end Selection

theorem round_repeating (fits : Fits narrow p) (unoccluded : p.Unoccluded)
    (repeating : A.Repeating p) (enough : p.candidates.length < fuel)
    (ran : round narrow p fuel a (A.encode p.candidates.length) = some s) :
    s = (A.round p a).encode p.candidates.length ∧ (A.round p a).Repeating p := by
  refine eq_foldl_of_foldlM_eq_some repeating
    (fun entry mem B repeating t visited => ?_) ran
  rw [visit_eq fits repeating.bounded enough (lt_of_mem_zipIdx mem)] at visited
  split at visited
  · exact ⟨(some.inj visited).symm,
      repeating.visit unoccluded mem (visit_spec ..) ‹_›⟩
  · cases visited

/-- A run whose factors reach the mark selects a candidate twice, if it ends. -/
theorem rounds_repeating (fits : Fits narrow p) (unoccluded : p.Unoccluded)
    (large : p.alpha.lt .max = false) (degree : 2 ≤ p.degree) {nbr : V}
    (stored : p.candidates[0]? = some candidate) (present : candidate.id = some nbr)
    (enough : p.candidates.length < fuel) {left : ℕ} (repeating : A.Repeating p)
    (ran : rounds narrow p fuel left a (A.encode p.candidates.length) = some s) :
    ∃ B : Selection, s = B.encode p.candidates.length ∧ B.Repeating p ∧ 2 ≤ B.selected.length := by
  induction left generalizing a A with
  | zero => cases ran
  | succ left ih =>
    rcases lt_or_ge A.selected.length p.degree with room | full
    · replace ran := (if_pos room).symm.trans ran
      rw [bind_eq_bind, bind_eq_some_iff] at ran
      obtain ⟨t, first, rest⟩ := ran
      obtain ⟨rfl, kept⟩ := round_repeating fits unoccluded repeating enough first
      split at rest
      · rename_i last
        cases rest
        have reached : a.lt .max = false := by
          refine eq_false_of_ne_true fun below => ?_
          rw [eq_eq_false_of_lt below large] at last
          cases last
        have more := repeating.length_round unoccluded reached room stored present
        have := length_pos_iff.mpr repeating.nonempty
        exact ⟨_, rfl, kept, by omega⟩
      · exact ih kept rest
    · replace ran := (if_neg (not_lt.mpr full)).symm.trans ran
      exact ⟨A, (some.inj ran).symm, repeating, by omega⟩

/-- From the start, a run whose factors reach the mark selects a candidate twice, if it ends. -/
theorem robustPrune_repeating (fits : Fits narrow p) (unoccluded : p.Unoccluded)
    (large : p.alpha.lt .max = false) (degree : 2 ≤ p.degree) {nbr : V}
    (stored : p.candidates[0]? = some candidate) (present : candidate.id = some nbr)
    (enough : p.candidates.length < fuel) (ran : robustPrune narrow p fuel p.freshStates = some s) :
    ∃ B : Selection, s = B.encode p.candidates.length ∧ B.Repeating p ∧ 2 ≤ B.selected.length := by
  obtain ⟨left, rfl⟩ : ∃ left, fuel = left + 1 := ⟨fuel - 1, by omega⟩
  have marks : p.Distinguishes .one := .inl (by decide)
  have sound := sound_init.round marks
  have chosen : 0 ∈ (init.round p .one).selected :=
    mem_round_one (by omega) stored present nofun
  have repeating : (init.round p .one).Repeating p :=
    ⟨sound.bounded, within_init.round, ne_nil_of_mem chosen, sound.settled 0 chosen⟩
  rw [freshStates, ← states_init] at ran
  replace ran := (if_pos (show 0 < p.degree by omega)).symm.trans ran
  rw [show (⟨init.states p.candidates.length, 0⟩ : Progress) =
    init.encode p.candidates.length from rfl,
    round_eq fits sound_init marks enough, bind_eq_bind, bind_some,
    if_neg (ne_true_of_eq_false (eq_eq_false_of_lt (show one.lt .max = true by decide)
      large))] at ran
  exact rounds_repeating fits unoccluded large degree stored present enough repeating ran

/-- The first round, after the candidates before position `i`. -/
structure AllSelected (p : Prune V) (i : ℕ) (A : Selection) : Prop where
  within : A.Within p
  unseen : ∀ k, i ≤ k → A.factor k = .zero
  selected : A.selected.length < p.degree → ∀ k < i, ∀ candidate ∈ p.candidates[k]?,
    candidate.id.isSome = true → k ∈ A.selected

theorem AllSelected.visit (unoccluded : p.Unoccluded) (all : p.AllSelected i A)
    (stored : p.candidates[i]? = some candidate) :
    p.AllSelected (i + 1) (A.visit p .one (candidate, i)) := by
  have later : ∀ k, i + 1 ≤ k → k ≠ i := fun k _ => by omega
  have mem : (candidate, i) ∈ p.candidates.zipIdx := mem_zipIdx_iff_getElem?.mpr stored
  have step := visit_spec p .one A (candidate, i)
  generalize A.visit p .one (candidate, i) = B at step
  refine ⟨all.within.visit mem step, ?_, ?_⟩
  · intro k above
    cases step <;>
      simpa [settle, occlude, select, later k above] using
        all.unseen k (by omega)
  · intro room k below other found present
    have earlier : k < i → k ∈ A.selected := fun before =>
      all.selected (step.grows.length_le.trans_lt room) k before other found present
    rcases Nat.lt_or_ge k i with before | here
    · exact step.grows.subset (earlier before)
    · obtain rfl : k = i := by omega
      obtain rfl := some.inj (stored.symm.trans found)
      cases step with
      | full full => omega
      | settled _ settled =>
        rw [show A.factor k = .zero from all.unseen k le_rfl] at settled
        cases settled
      | absent _ _ absent => simp [show candidate.id = none from absent] at present
      | occluded _ undecided nbr _ occluded =>
        rw [all.within.examined unoccluded, undecided] at occluded
        cases occluded
      | selected => exact mem_append_right _ (mem_singleton_self k)

/-- Where nothing is occluded, every present candidate is selected until there are enough. -/
theorem mem_prune_of_unoccluded (unoccluded : p.Unoccluded)
    (room : p.prune.selected.length < p.degree) (stored : p.candidates[i]? = some candidate)
    (present : candidate.id.isSome = true) : i ∈ p.prune.selected := by
  have grows : (init.round p .one).selected <+: p.prune.selected := by
    rw [prune, range_succ_eq_map, foldl_cons]
    exact List.foldlRecOn (motive := fun (A : Selection) =>
      (init.round p .one).selected <+: A.selected) _ _ prefix_rfl
      fun A kept r _ => kept.trans (foldl_visit_grows _)
  have start : p.AllSelected 0 .init :=
    ⟨within_init, fun _ _ => rfl, fun _ _ below => absurd below (Nat.not_lt_zero _)⟩
  have all := foldl_zipIdx_rec p.candidates
    0 start fun i candidate A stored all => by
      rw [Nat.zero_add] at *
      exact all.visit unoccluded stored
  rw [Nat.zero_add] at all
  obtain ⟨inside, -⟩ := List.getElem?_eq_some_iff.mp stored
  exact grows.subset (all.selected (grows.length_le.trans_lt room) i inside candidate stored present)

/-- Without a present candidate, a run for something that is not a number goes on for ever. -/
theorem rounds_of_nan (fits : Fits narrow p) (nan : p.alpha.isNan = true) (degree : 0 < p.degree)
    (absent : ∀ candidate ∈ p.candidates, candidate.id = none) (enough : p.candidates.length < fuel)
    (left : ℕ) (bounded : A.Bounded p) (empty : A.selected = []) :
    rounds narrow p fuel left a (A.encode p.candidates.length) = none := by
  induction left generalizing a A with
  | zero => rfl
  | succ left ih =>
    have idle : round narrow p fuel a (A.encode p.candidates.length) =
        some ((A.round p a).encode p.candidates.length) ∧
        ((A.round p a).Bounded p ∧ (A.round p a).selected = []) := by
      refine foldlM_eq_some_foldl (P := fun A : Selection => A.Bounded p ∧ A.selected = [])
        ⟨bounded, empty⟩ fun entry mem B ⟨bounded, empty⟩ => ?_
      have missing : entry.1.id = none := absent _ (fst_mem_of_mem_zipIdx mem)
      have step := visit_spec p a B entry
      have same : (B.visit p a entry).selected = [] := by
        generalize B.visit p a entry = C at step
        cases step with
        | full => exact empty
        | settled => exact empty
        | absent => exact empty
        | occluded room undecided nbr present => simp [missing] at present
        | selected room undecided nbr present => simp [missing] at present
      have short : (B.visit p a entry).selected.length ≤ p.candidates.length := by simp [same]
      exact ⟨by rw [visit_eq fits bounded enough (lt_of_mem_zipIdx mem), if_pos short],
        bounded.visit (lt_of_mem_zipIdx mem) step short, same⟩
    obtain ⟨ran, kept, still⟩ := idle
    have room : A.selected.length < p.degree := by rwa [empty]
    refine (if_pos room).trans ?_
    rw [ran, bind_eq_bind, bind_some, if_neg (by simp [eq, nan])]
    exact ih kept still

end DiskAnn.Prune
