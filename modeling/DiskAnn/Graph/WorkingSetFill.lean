import DiskAnn.Graph.WorkingSet
import DiskAnn.Machine.Run

/-! # Fills of the working set

What a fill keeps, adds and drops, and how large it leaves the map. The generations separate the
entries that the current fill asked for from all others: no entry carries a generation beyond the
number of fills made so far. The size rests on one count, the requests whose key has no entry: the
eviction leaves room for all of them, or has nothing left to evict.
-/

namespace DiskAnn.WorkingSet.Map

open List Nat

variable {K V P E : Type} [DecidableEq K] {m : Map K V P}

/-! ## Look-ups -/

theorem find_eq_some_iff (m : Map K V P) (key : K) (tagged : Generation V) :
    m.find key = some tagged ↔ (key, tagged) ∈ m.map := by
  constructor
  · intro found
    obtain ⟨entry, first, rfl⟩ := Option.map_eq_some_iff.mp found
    obtain rfl : entry.1 = key := by simpa using find?_some first
    exact mem_of_find?_eq_some first
  · intro mem
    have present : (m.map.find? fun entry => entry.1 = key).isSome :=
      find?_isSome.mpr ⟨_, mem, by simp⟩
    obtain ⟨entry, first⟩ := Option.isSome_iff_exists.mp present
    have same : entry = (key, tagged) := inj_on_of_nodup_map m.distinct
      (mem_of_find?_eq_some first) mem (by simpa using find?_some first)
    rw [find, first, same]
    rfl

theorem find_eq_none_iff (m : Map K V P) (key : K) : m.find key = none ↔ key ∉ m.keys := by
  rw [find, Option.map_eq_none_iff, find?_eq_none, mem_map]
  simp only [decide_eq_true_eq, not_exists, not_and]

theorem isSome_find_iff (m : Map K V P) (key : K) : (m.find key).isSome ↔ key ∈ m.keys := by
  rw [← not_iff_not, ← find_eq_none_iff]
  simp

theorem mem_keys_of_find {key : K} {tagged : Generation V} (found : m.find key = some tagged) :
    key ∈ m.keys :=
  (m.isSome_find_iff key).mp (by rw [found]; rfl)

theorem exists_find_of_mem_keys {key : K} (mem : key ∈ m.keys) :
    ∃ tagged, m.find key = some tagged :=
  Option.isSome_iff_exists.mp ((m.isSome_find_iff key).mpr mem)

/-! ## One entry -/

variable (m)

theorem keys_touch (key : K) : (m.touch key).keys = m.keys := by
  simp only [keys, touch, map_map]
  refine map_congr_left fun entry _ => ?_
  by_cases here : entry.1 = key <;> simp [here]

theorem find_touch (key other : K) :
    (m.touch key).find other =
      (m.find other).map fun tagged =>
        if other = key then { tagged with generation := m.generation } else tagged := by
  have same : (fun entry : K × Generation V => decide (entry.1 = other)) ∘
      (fun entry => if entry.1 = key then
        (entry.1, { entry.2 with generation := m.generation }) else entry) =
      fun entry => decide (entry.1 = other) := by
    funext entry
    by_cases here : entry.1 = key <;> simp [here]
  rw [find, touch, find?_map, same, find]
  cases first : m.map.find? fun entry => entry.1 = other with
  | none => rfl
  | some entry =>
    obtain rfl : entry.1 = other := by simpa using find?_some first
    by_cases here : entry.1 = key <;> simp [here]

theorem find_insertEntry (key other : K) (value : V) :
    (m.insertEntry key value).find other =
      if other = key then some ⟨m.generation, value⟩ else m.find other := by
  by_cases here : other = key
  · subst here
    simp [find, insertEntry]
  · rw [if_neg here, find, insertEntry, find?_cons_of_neg (by simpa using Ne.symm here),
      find?_filter]
    congr 2
    funext entry
    by_cases there : entry.1 = other <;> simp [there, here]

theorem keys_insertEntry (key : K) (value : V) (vacant : m.find key = none) :
    (m.insertEntry key value).keys = key :: m.keys := by
  have absent := (m.find_eq_none_iff key).mp vacant
  have all : m.map.filter (fun entry => entry.1 ≠ key) = m.map :=
    filter_eq_self.mpr fun entry mem => by
      rw [decide_eq_true_eq]
      rintro rfl
      exact absent (mem_map_of_mem mem)
  simp only [keys, insertEntry, all, map_cons]

/-! ## Promotion and eviction -/

theorem promote_cases (key : K) (keys : List K) :
    (key ∈ m.keys ∧ (m.promote (key :: keys)).1 = ((m.touch key).promote keys).1 + 1 ∧
      (m.promote (key :: keys)).2 = ((m.touch key).promote keys).2) ∨
    (key ∉ m.keys ∧ m.promote (key :: keys) = m.promote keys) := by
  cases found : m.find key with
  | none => exact .inr ⟨(m.find_eq_none_iff key).mp found, by rw [promote, found]⟩
  | some tagged =>
    refine .inl ⟨mem_keys_of_find found, ?_, ?_⟩ <;> rw [promote, found]

theorem promote_keys (keys : List K) : (m.promote keys).2.keys = m.keys := by
  induction keys generalizing m with
  | nil => rfl
  | cons key keys ih =>
    obtain ⟨_, _, rest⟩ | ⟨_, rest⟩ := m.promote_cases key keys
    · rw [rest, ih, keys_touch]
    · rw [rest, ih]

theorem promote_length (keys : List K) :
    (m.promote keys).2.map.length = m.map.length := by
  rw [← length_map Prod.fst, ← m.map.length_map Prod.fst]
  exact congrArg length (m.promote_keys keys)

theorem promote_count (keys : List K) :
    (m.promote keys).1 = keys.countP (· ∈ m.keys) := by
  induction keys generalizing m with
  | nil => rfl
  | cons key keys ih =>
    obtain ⟨present, count, _⟩ | ⟨absent, rest⟩ := m.promote_cases key keys
    · rw [count, ih, keys_touch, countP_cons_of_pos (by simpa using present)]
    · rw [rest, ih, countP_cons_of_neg (by simpa using absent)]

theorem promote_fields (keys : List K) :
    (m.promote keys).2.overlay = m.overlay ∧ (m.promote keys).2.capacity = m.capacity ∧
      (m.promote keys).2.generation = m.generation := by
  induction keys generalizing m with
  | nil => exact ⟨rfl, rfl, rfl⟩
  | cons key keys ih =>
    obtain ⟨_, _, rest⟩ | ⟨_, rest⟩ := m.promote_cases key keys
    · rw [rest]
      exact ih (m.touch key)
    · rw [rest]
      exact ih m

theorem find_promote (keys : List K) (other : K) :
    (m.promote keys).2.find other =
      (m.find other).map fun tagged =>
        if other ∈ keys then { tagged with generation := m.generation } else tagged := by
  induction keys generalizing m with
  | nil => simp [promote]
  | cons key keys ih =>
    obtain ⟨_, _, rest⟩ | ⟨absent, rest⟩ := m.promote_cases key keys
    · rw [rest, ih, find_touch, Option.map_map]
      refine Option.map_congr fun tagged _ => ?_
      by_cases here : other = key <;> by_cases later : other ∈ keys <;>
        simp [here, touch]
    · rw [rest, ih]
      refine Option.map_congr fun tagged found => ?_
      have other_ne : other ≠ key := by
        rintro rfl
        exact absent (mem_keys_of_find found)
      simp [other_ne]

section

omit [DecidableEq K]

theorem mem_retainFrom_of_current {generation : BitVec 32} (remaining : ℕ)
    {entries : List (K × Generation V)} {entry : K × Generation V} (mem : entry ∈ entries)
    (current : entry.2.generation = generation) :
    entry ∈ retainFrom generation remaining entries := by
  induction entries generalizing remaining with
  | nil => cases mem
  | cons first entries ih =>
    cases remaining with
    | zero => exact mem
    | succ remaining =>
      unfold retainFrom
      obtain rfl | later := mem_cons.mp mem
      · rw [if_neg (not_not.mpr current)]
        exact mem_cons_self
      · split_ifs with other
        · exact ih remaining later
        · exact mem_cons_of_mem _ (ih (remaining + 1) later)

/-- The eviction either takes as many entries as asked, or leaves none of another generation. -/
theorem retainFrom_length (generation : BitVec 32) (remaining : ℕ)
    (entries : List (K × Generation V)) :
    (retainFrom generation remaining entries).length + remaining = entries.length ∨
      ∀ entry ∈ retainFrom generation remaining entries, entry.2.generation = generation := by
  induction entries generalizing remaining with
  | nil => cases remaining <;> exact .inr (forall_mem_nil _)
  | cons entry entries ih =>
    cases remaining with
    | zero => exact .inl rfl
    | succ remaining =>
      unfold retainFrom
      split_ifs with other
      · refine (ih remaining).imp_left fun taken => ?_
        rw [length_cons, ← taken]
        rfl
      · refine (ih (remaining + 1)).imp (fun taken => ?_) fun rest => ?_
        · rw [length_cons, length_cons]
          omega
        · exact forall_mem_cons.mpr ⟨not_not.mp other, rest⟩

end

variable {m}

theorem find_of_find_evict {request : Request K V E} {count : ℕ} {key : K} {tagged : Generation V}
    (found : (m.evict request count).find key = some tagged) : m.find key = some tagged := by
  unfold evict at found
  split_ifs at found with none
  · exact found
  · rw [find_eq_some_iff] at found ⊢
    exact (request.order_perm m.map).mem_iff.mp ((retainFrom_sublist _ _ _).subset found)

variable (request : Request K V E)

theorem find_evict_of_current (count : ℕ) {key : K}
    {tagged : Generation V} (found : m.find key = some tagged)
    (current : tagged.generation = m.generation) :
    (m.evict request count).find key = some tagged := by
  unfold evict
  split_ifs with none
  · exact found
  · rw [find_eq_some_iff] at found ⊢
    exact mem_retainFrom_of_current count ((request.order_perm m.map).mem_iff.mpr found) current

theorem evict_length (m : Map K V P) (request : Request K V E) (count : ℕ) :
    (m.evict request count).map.length + count = m.map.length ∨
      ∀ key tagged, (m.evict request count).find key = some tagged →
        tagged.generation = m.generation := by
  unfold evict
  split_ifs with none
  · exact .inl (by rw [none, add_zero])
  · refine (retainFrom_length m.generation count (request.order m.map)).imp (fun taken => ?_) ?_
    · rw [← (request.order_perm m.map).length_eq, ← taken]
    · intro current key tagged found
      exact current (key, tagged) ((find_eq_some_iff _ _ _).mp found)

omit [DecidableEq K] in
theorem evict_fields (m : Map K V P) (request : Request K V E) (count : ℕ) :
    (m.evict request count).overlay = m.overlay ∧ (m.evict request count).capacity = m.capacity ∧
      (m.evict request count).generation = m.generation := by
  unfold evict
  split_ifs <;> exact ⟨rfl, rfl, rfl⟩

/-! ## Preparing a fill -/

theorem isSome_get_iff (m : Map K V P) (key : K) : (m.get key).isSome ↔ key ∈ m.keys := by
  rw [get, Option.isSome_map, isSome_find_iff]

theorem get_of_find {key : K} {tagged : Generation V} (found : m.find key = some tagged) :
    m.get key = some tagged.value := by
  rw [get, found]
  rfl

/-- What `prepare` leaves of the entries. -/
structure Prepared (request : Request K V E) (m out : Map K V P) : Prop where
  overlay : out.overlay = m.overlay
  capacity : out.capacity = m.capacity
  generation : out.generation = m.generation + 1
  origin : ∀ key tagged, out.find key = some tagged →
    m.get key = some tagged.value ∧
      (tagged.generation = m.generation + 1 ∨ m.find key = some tagged)
  kept : m.capacity ≠ some 0 → ∀ key ∈ request.keys, out.get key = m.get key
  cleared : m.capacity = some 0 → out.map = []
  room : ∀ capacity, m.capacity = some capacity →
    out.map.length + request.keys.countP (· ∉ out.keys) ≤ capacity ∨
      ∀ key ∈ out.keys, key ∈ request.keys

theorem prepared_newGeneration (idle : m.map = [] ∨ m.capacity = none) :
    Prepared request m m.newGeneration where
  overlay := rfl
  capacity := rfl
  generation := rfl
  origin := fun _ _ found => ⟨get_of_find found, .inr found⟩
  kept := fun _ _ _ => rfl
  cleared := fun zero => idle.resolve_right (by rw [zero]; nofun)
  room := by
    intro capacity limited
    have empty := idle.resolve_right (by rw [limited]; nofun)
    refine .inr fun key mem => ?_
    rw [keys, newGeneration, empty] at mem
    cases mem

theorem prepared_clear (zero : m.capacity = some 0) :
    Prepared request m m.newGeneration.clear where
  overlay := rfl
  capacity := rfl
  generation := rfl
  origin := nofun
  kept := fun limited => absurd zero limited
  cleared := fun _ => rfl
  room := fun _ _ => .inr nofun

theorem get_promote (m : Map K V P) (keys : List K) (key : K) :
    (m.promote keys).2.get key = m.get key := by
  rw [get, find_promote, Option.map_map]
  refine Option.map_congr fun tagged _ => ?_
  by_cases asked : key ∈ keys <;> simp [asked]

/-- The promotion counts requests, so the rest of the requests are those without an entry. -/
theorem promote_rest (m : Map K V P) (keys : List K) :
    keys.length - (m.promote keys).1 = keys.countP (· ∉ m.keys) := by
  rw [promote_count, length_eq_countP_add_countP (· ∈ m.keys)]
  simp

theorem prepared_evict {capacity : ℕ} (limit : m.capacity = some capacity)
    (pos : capacity ≠ 0)
    (stale : ∀ key tagged, m.find key = some tagged → tagged.generation ≠ m.generation + 1) :
    Prepared request m ((m.newGeneration.promote request.keys).2.evict request
      (m.map.length + request.keys.countP (· ∉ m.keys) - capacity)) := by
  set promoted := (m.newGeneration.promote request.keys).2 with promoted_def
  set count := m.map.length + request.keys.countP (· ∉ m.keys) - capacity with count_def
  obtain ⟨overlay, limited, generation⟩ := promote_fields m.newGeneration request.keys
  obtain ⟨overlay', limited', generation'⟩ := evict_fields promoted request count
  have find_promoted (key : K) : promoted.find key = (m.find key).map fun tagged =>
      if key ∈ request.keys then { tagged with generation := m.generation + 1 } else tagged :=
    find_promote m.newGeneration request.keys key
  have get_promoted (key : K) : promoted.get key = m.get key :=
    get_promote m.newGeneration request.keys key
  -- an entry that was asked for is of the new generation, and so survives the eviction
  have kept (key : K) (asked : key ∈ request.keys) :
      (promoted.evict request count).get key = m.get key := by
    rw [← get_promoted]
    cases found : promoted.find key with
    | none =>
      rw [get, get, found, Option.map_none, Option.map_eq_none_iff, Option.eq_none_iff_forall_not_mem]
      intro tagged there
      rw [find_of_find_evict there] at found
      cases found
    | some tagged =>
      have current : tagged.generation = promoted.generation := by
        rw [find_promoted] at found
        obtain ⟨old, _, rfl⟩ := Option.map_eq_some_iff.mp found
        rw [if_pos asked]
        exact generation.symm
      rw [get_of_find found, get_of_find (find_evict_of_current request count found current)]
  refine ⟨overlay'.trans overlay, limited'.trans limited, generation'.trans generation, ?_,
    fun _ => kept, fun zero => ?_, ?_⟩
  · intro key tagged found
    have there := find_of_find_evict found
    refine ⟨(get_promoted key) ▸ get_of_find there, ?_⟩
    rw [find_promoted] at there
    obtain ⟨old, before, rfl⟩ := Option.map_eq_some_iff.mp there
    by_cases asked : key ∈ request.keys
    · exact .inl (by rw [if_pos asked])
    · exact .inr (by rw [if_neg asked, before])
  · exact absurd (Option.some.inj (limit.symm.trans zero)) pos
  · intro capacity' limit'
    obtain rfl := Option.some.inj (limit.symm.trans limit')
    refine (evict_length promoted request count).imp (fun taken => ?_) fun current key mem => ?_
    · have same : request.keys.countP (· ∉ (promoted.evict request count).keys) =
          request.keys.countP (· ∉ m.keys) := by
        refine countP_congr fun key asked => ?_
        simp only [← isSome_get_iff, kept key asked]
      have size : promoted.map.length = m.map.length :=
        promote_length m.newGeneration request.keys
      omega
    · obtain ⟨tagged, found⟩ := exists_find_of_mem_keys mem
      have there := find_of_find_evict found
      rw [find_promoted] at there
      obtain ⟨old, before, rfl⟩ := Option.map_eq_some_iff.mp there
      by_contra other
      rw [if_neg other] at found
      exact stale key old before ((current key old found).trans generation)

theorem prepare_spec (stale : ∀ key tagged, m.find key = some tagged → tagged.generation ≠ m.generation + 1) :
    ∃ out, m.prepare request = some out ∧ Prepared request m out := by
  by_cases empty : m.map = []
  · refine ⟨_, ?_, prepared_newGeneration request (.inl empty)⟩
    exact if_pos (isEmpty_iff.mpr empty)
  have occupied : ¬ m.newGeneration.map.isEmpty = true := fun is => empty (isEmpty_iff.mp is)
  cases limit : m.capacity with
  | none =>
    refine ⟨_, ?_, prepared_newGeneration request (.inr limit)⟩
    simp only [prepare, if_neg occupied]
    rw [show m.newGeneration.capacity = none from limit]
  | some capacity =>
    by_cases zero : capacity = 0
    · subst zero
      refine ⟨_, ?_, prepared_clear request limit⟩
      simp only [prepare, if_neg occupied]
      rw [show m.newGeneration.capacity = some 0 from limit]
      rfl
    · refine ⟨_, ?_, prepared_evict request limit zero stale⟩
      simp only [prepare]
      rw [show m.newGeneration.capacity = some capacity from limit]
      have few : (m.newGeneration.promote request.keys).1 ≤ request.keys.length := by
        rw [promote_count]
        exact countP_le_length
      have size := promote_length m.newGeneration request.keys
      have rest := promote_rest m.newGeneration request.keys
      simp only [size, rest]
      split_ifs with full
      · rfl
      · refine congrArg some (if_pos ?_).symm
        exact Nat.sub_eq_zero_of_le (Nat.le_of_not_le full)

/-! ## The loop -/

/-- What the loop of a fill does over the keys from a position on. -/
structure Filled (fetch : ℕ → K → Except E (Option V)) (position : ℕ) (keys : List K)
    (m : Map K V P) (out : Map K V P × Except E Unit) : Prop where
  overlay : out.1.overlay = m.overlay
  capacity : out.1.capacity = m.capacity
  generation : out.1.generation = m.generation
  kept : ∀ key value, m.get key = some value → out.1.get key = some value
  origin : ∀ key tagged, out.1.find key = some tagged →
    tagged.generation = m.generation ∨ m.find key = some tagged
  added : ∀ key ∈ out.1.keys, key ∈ m.keys ∨
    (m.overlay.bind (· key) = none ∧
      ∃ i value, keys[i]? = some key ∧ fetch (position + i) key = .ok (some value))
  fetched : out.2 = .ok () → ∀ i key value, keys[i]? = some key →
    fetch (position + i) key = .ok (some value) →
    (m.overlay.bind (· key)).isSome ∨ key ∈ out.1.keys
  size : out.1.map.length ≤ m.map.length + keys.countP (· ∉ m.keys)

namespace Filled

variable {fetch : ℕ → K → Except E (Option V)} {position : ℕ} {key : K} {keys : List K}
  {m m' : Map K V P} {out : Map K V P × Except E Unit}

omit [DecidableEq K] in
theorem singleton_getElem? {i : ℕ} {name : K} (here : [key][i]? = some name) :
    i = 0 ∧ key = name := by
  cases i with
  | zero => exact ⟨rfl, Option.some.inj here⟩
  | succ i => cases here

theorem keys_subset (filled : Filled fetch position keys m out) :
    ∀ key ∈ m.keys, key ∈ out.1.keys := by
  intro key mem
  obtain ⟨value, cached⟩ := Option.isSome_iff_exists.mp ((isSome_get_iff m key).mpr mem)
  exact (isSome_get_iff _ key).mp (by rw [filled.kept key value cached]; rfl)

theorem same (res : Except E Unit) (settled : res = .ok () → ∀ i key value,
      keys[i]? = some key → fetch (position + i) key = .ok (some value) →
      (m.overlay.bind (· key)).isSome ∨ key ∈ m.keys) :
    Filled fetch position keys m (m, res) where
  overlay := rfl
  capacity := rfl
  generation := rfl
  kept := fun _ _ cached => cached
  origin := fun _ _ found => .inr found
  added := fun _ mem => .inl mem
  fetched := settled
  size := le_add_right _ _

theorem cons (first : Filled fetch position [key] m (m', .ok ()))
    (rest : Filled fetch (position + 1) keys m' out) :
    Filled fetch position (key :: keys) m out where
  overlay := rest.overlay.trans first.overlay
  capacity := rest.capacity.trans first.capacity
  generation := rest.generation.trans first.generation
  kept := fun name value cached => rest.kept name value (first.kept name value cached)
  origin := by
    intro name tagged found
    obtain fresh | found := rest.origin name tagged found
    · exact .inl (fresh.trans first.generation)
    · exact first.origin name tagged found
  added := by
    intro name mem
    obtain mem | ⟨unseeded, i, value, here, answer⟩ := rest.added name mem
    · refine (first.added name mem).imp_right fun ⟨unseeded, i, value, here, answer⟩ => ?_
      cases i with
      | zero => exact ⟨unseeded, 0, value, here, answer⟩
      | succ i => cases here
    · refine .inr ⟨first.overlay ▸ unseeded, i + 1, value, here, ?_⟩
      rwa [← add_assoc, add_right_comm]
  fetched := by
    intro ok i name value here answer
    cases i with
    | zero =>
      refine (first.fetched rfl 0 name value ?_ answer).imp_right fun mem => ?_
      · simpa using here
      · exact rest.keys_subset name mem
    | succ i =>
      rw [← first.overlay]
      refine rest.fetched ok i name value here ?_
      rwa [add_right_comm, add_assoc]
  size := by
    have smaller : keys.countP (· ∉ m'.keys) ≤ keys.countP (· ∉ m.keys) := by
      refine countP_mono_left fun name _ absent => ?_
      simp only [decide_eq_true_eq] at absent ⊢
      exact fun mem => absent (first.keys_subset name mem)
    have one : m'.map.length ≤ _ := first.size
    have more := rest.size
    have split : (key :: keys).countP (· ∉ m.keys) =
        [key].countP (· ∉ m.keys) + keys.countP (· ∉ m.keys) := by
      rw [← countP_append]
      rfl
    omega

theorem touch (fetch : ℕ → K → Except E (Option V)) (position : ℕ) (present : key ∈ m.keys) :
    Filled fetch position [key] m (m.touch key, .ok ()) where
  overlay := rfl
  capacity := rfl
  generation := rfl
  kept := by
    intro name value cached
    rw [get, find_touch, Option.map_map, ← cached, get]
    refine Option.map_congr fun tagged _ => ?_
    by_cases here : name = key <;> simp [here]
  origin := by
    intro name tagged found
    change (m.touch key).find name = some tagged at found
    rw [find_touch] at found
    obtain ⟨old, before, rfl⟩ := Option.map_eq_some_iff.mp found
    by_cases here : name = key
    · exact .inl (by rw [if_pos here])
    · exact .inr (by rw [if_neg here, before])
  added := fun name mem => .inl (m.keys_touch key ▸ mem)
  fetched := by
    intro _ i name value here _
    obtain ⟨rfl, rfl⟩ := singleton_getElem? here
    exact .inr ((m.keys_touch key).symm ▸ present)
  size := by
    have size := congrArg List.length (m.keys_touch key)
    rw [length_map, length_map] at size
    exact size.le.trans (le_add_right _ _)

theorem insertEntry {value : V} (unseeded : m.overlay.bind (· key) = none)
    (vacant : m.find key = none) (answer : fetch position key = .ok (some value)) :
    Filled fetch position [key] m (m.insertEntry key value, .ok ()) where
  overlay := rfl
  capacity := rfl
  generation := rfl
  kept := by
    intro name old cached
    have other : name ≠ key := by
      rintro rfl
      rw [get, vacant] at cached
      cases cached
    rw [get, find_insertEntry, if_neg other]
    exact cached
  origin := by
    intro name tagged found
    change (m.insertEntry key value).find name = some tagged at found
    rw [find_insertEntry] at found
    split_ifs at found with here
    · exact .inl (by rw [← Option.some.inj found])
    · exact .inr found
  added := by
    intro name member
    rw [keys_insertEntry m key value vacant] at member
    obtain rfl | member := mem_cons.mp member
    · exact .inr ⟨unseeded, 0, value, rfl, answer⟩
    · exact .inl member
  fetched := by
    intro _ i name _ here _
    obtain ⟨rfl, rfl⟩ := singleton_getElem? here
    exact .inr (by rw [keys_insertEntry m key value vacant]; exact mem_cons_self)
  size := by
    have size := congrArg length (keys_insertEntry m key value vacant)
    rw [length_map, length_cons, length_map] at size
    rw [countP_cons_of_pos (by simpa using (m.find_eq_none_iff key).mp vacant)]
    exact size.le

end Filled

theorem filled_fillFrom (fetch : ℕ → K → Except E (Option V)) (position : ℕ) (keys : List K)
    (m : Map K V P) : Filled fetch position keys m (fillFrom fetch position keys m) := by
  induction keys generalizing position m with
  | nil => exact .same _ nofun
  | cons key keys ih =>
    unfold fillFrom
    cases seed : m.overlay.bind (· key) with
    | some element =>
      simp only [entry, seed]
      refine .cons (.same _ fun _ i name value here _ => ?_) (ih _ m)
      obtain ⟨rfl, rfl⟩ := Filled.singleton_getElem? here
      exact .inl (by rw [seed]; rfl)
    | none =>
      cases found : m.find key with
      | some tagged =>
        simp only [entry, seed, found]
        exact .cons (.touch fetch position (mem_keys_of_find found)) (ih _ _)
      | none =>
        simp only [entry, seed, found]
        cases answer : fetch position key with
        | error e => exact .same _ nofun
        | ok fetched =>
          cases fetched with
          | none =>
            refine .cons (.same _ fun _ i name value here some => ?_) (ih _ m)
            obtain ⟨rfl, rfl⟩ := Filled.singleton_getElem? here
            rw [add_zero, answer] at some
            cases some
          | some value => exact .cons (.insertEntry seed found answer) (ih _ _)

/-! ## Runs of fills -/

/-- A map after a number of fills. -/
structure Reached (overlay : Option (K → Option P)) (capacity : Option ℕ) (fills : ℕ)
    (m : Map K V P) : Prop where
  overlay_eq : m.overlay = overlay
  capacity_eq : m.capacity = capacity
  generation : m.generation = BitVec.ofNat 32 fills
  tagged : ∀ key tagged, m.find key = some tagged → tagged.generation.toNat ≤ fills
  disjoint : ∀ key ∈ m.keys, overlay.bind (· key) = none

/-- A fill as a step: what it answers is left out. -/
def fillStep (m : Map K V P) (request : Request K V E) : Option (Map K V P) :=
  (m.fill request).map Prod.fst

theorem fill_spec {overlay : Option (K → Option P)} {capacity : Option ℕ} {fills : ℕ}
    (reached : Reached overlay capacity fills m) (request : Request K V E)
    (few : fills + 1 < 2 ^ 32) :
    ∃ middle, Prepared request m middle ∧
      ∃ out, m.fill request = some out ∧ Filled request.fetch 0 request.keys middle out ∧
        Reached overlay capacity (fills + 1) out.1 := by
  have next : m.generation + 1 = BitVec.ofNat 32 (fills + 1) := by
    rw [reached.generation, BitVec.ofNat_add]
    rfl
  have toNat_next : (BitVec.ofNat 32 (fills + 1)).toNat = fills + 1 := by
    rw [BitVec.toNat_ofNat, mod_eq_of_lt few]
  have stale : ∀ key tagged, m.find key = some tagged → tagged.generation ≠ m.generation + 1 := by
    intro key tagged found same
    have old := reached.tagged key tagged found
    rw [same, next, toNat_next] at old
    exact not_succ_le_self _ old
  obtain ⟨middle, prepared_eq, prepared⟩ := prepare_spec request stale
  have filled := filled_fillFrom request.fetch 0 request.keys middle
  refine ⟨middle, prepared, _, ?_, filled, ?_⟩
  · rw [fill, prepared_eq]
    rfl
  refine ⟨?_, ?_, ?_, ?_, ?_⟩
  · rw [filled.overlay, prepared.overlay, reached.overlay_eq]
  · rw [filled.capacity, prepared.capacity, reached.capacity_eq]
  · rw [filled.generation, prepared.generation, next]
  · intro key tagged found
    obtain fresh | found := filled.origin key tagged found
    · rw [fresh, prepared.generation, next, toNat_next]
    · obtain ⟨_, fresh | found⟩ := prepared.origin key tagged found
      · rw [fresh, next, toNat_next]
      · exact (reached.tagged key tagged found).trans (le_succ _)
  · intro key mem
    obtain mem | ⟨unseeded, _⟩ := filled.added key mem
    · obtain ⟨tagged, found⟩ := exists_find_of_mem_keys mem
      have before := (prepared.origin key tagged found).1
      exact reached.disjoint key ((isSome_get_iff m key).mp (by rw [before]; rfl))
    · rwa [prepared.overlay, reached.overlay_eq] at unseeded

theorem reached_run (overlay : Option (K → Option P)) (capacity : Capacity) (defaultCapacity : ℕ)
    (requests : List (Request K V E)) (few : requests.length < 2 ^ 32) :
    ∃ m, Machine.run fillStep (build capacity overlay defaultCapacity) requests = some m ∧
      Reached overlay (capacity.resolve defaultCapacity) requests.length m := by
  induction requests using List.reverseRecOn with
  | nil => exact ⟨_, rfl, rfl, rfl, rfl, nofun, nofun⟩
  | append_singleton requests request ih =>
    rw [length_append] at few
    obtain ⟨m, ran, reached⟩ := ih (lt_of_succ_lt few)
    obtain ⟨_, _, out, filled, _, reached'⟩ := fill_spec reached request few
    have stepped : fillStep m request = some out.1 := by
      rw [fillStep, filled]
      rfl
    refine ⟨out.1, ?_, ?_⟩
    · rw [Machine.run_append ran, Machine.run_cons stepped]
      rfl
    · rwa [length_append]

theorem isSome_viewGet_iff (project : V → P) (m : Map K V P) (key : K) :
    (m.viewGet project key).isSome ↔ (m.overlay.bind (· key)).isSome ∨ key ∈ m.keys := by
  rw [viewGet, Option.isSome_or, Option.isSome_map, Bool.or_eq_true, isSome_find_iff]

/-- After any fills, the next one never underflows; it serves a key from the overlay, from what was
cached or from what it fetched; it keeps what was cached and asked for; and it leaves the map apart
from the overlay and within the capacity or the keys it was asked for. A capacity of zero caches
nothing from one fill to the next. -/
theorem fill_serves_requests (capacity : Capacity) (overlay : Option (K → Option P))
    (defaultCapacity : ℕ) (project : V → P) (before : List (Request K V E))
    (request : Request K V E) (few : (before ++ [request]).length < 2 ^ 32) :
    ∃ m m' result,
      Machine.run fillStep (build capacity overlay defaultCapacity) before = some m ∧
      m.fill request = some (m', result) ∧
      (result = .ok () → ∀ key ∈ request.keys,
        ((m'.viewGet project key).isSome ↔
          (overlay.bind (· key)).isSome ∨
          (capacity.resolve defaultCapacity ≠ some 0 ∧ (m.get key).isSome) ∨
          ∃ i value, request.keys[i]? = some key ∧ request.fetch i key = .ok (some value))) ∧
      (capacity.resolve defaultCapacity ≠ some 0 → ∀ key ∈ request.keys, ∀ value,
        m.get key = some value → m'.get key = some value) ∧
      (∀ key, (m'.get key).isSome → overlay.bind (· key) = none) ∧
      ∀ limit, capacity.resolve defaultCapacity = some limit →
        m'.map.length ≤ max limit request.keys.dedup.length := by
  rw [length_append] at few
  obtain ⟨m, ran, reached⟩ :=
    reached_run overlay capacity defaultCapacity before (Nat.lt_of_succ_lt few)
  obtain ⟨middle, prepared, ⟨m', result⟩, filled_eq, filled, reached'⟩ :=
    fill_spec reached request few
  rw [← reached.capacity_eq]
  refine ⟨m, m', result, ran, filled_eq, fun ok key asked => ?_,
    fun limited key asked value cached => ?_,
    fun key cached => reached'.disjoint key ((isSome_get_iff m' key).mp cached),
    fun limit limit_eq => ?_⟩
  · rw [isSome_viewGet_iff, reached'.overlay_eq]
    constructor
    · rintro (seeded | member)
      · exact .inl seeded
      · obtain member | ⟨_, i, value, here, answer⟩ := filled.added key member
        · obtain ⟨tagged, found⟩ := exists_find_of_mem_keys member
          refine .inr (.inl ⟨fun zero => ?_, by rw [(prepared.origin key tagged found).1]; rfl⟩)
          rw [keys, prepared.cleared zero] at member
          cases member
        · exact .inr (.inr ⟨i, value, here, Nat.zero_add i ▸ answer⟩)
    · rintro (seeded | ⟨limited, cached⟩ | ⟨i, value, here, answer⟩)
      · exact .inl seeded
      · rw [← prepared.kept limited key asked, isSome_get_iff] at cached
        exact .inr (filled.keys_subset key cached)
      · rw [← reached.overlay_eq, ← prepared.overlay]
        exact filled.fetched ok i key value here ((Nat.zero_add i).symm ▸ answer)
  · refine filled.kept key value ?_
    rwa [prepared.kept limited key asked]
  · obtain room | asked := prepared.room limit limit_eq
    · exact le_max_of_le_left (filled.size.trans room)
    · refine le_max_of_le_right ?_
      rw [← m'.map.length_map Prod.fst]
      refine (m'.distinct.subperm fun key member => mem_dedup.mpr ?_).length_le
      obtain member | ⟨_, i, _, here, _⟩ := filled.added key member
      · exact asked key member
      · exact mem_of_getElem? here

/-- A fill for the key `1` whose fetch gives the answer. -/
def requestOne (answer : Option ℕ) : Request ℕ ℕ Unit where
  keys := [1]
  fetch := fun _ _ => .ok answer
  order := id
  order_perm := fun _ => .refl _

theorem fill_serves_requests_one :
    ([requestOne (some 7)] ++ [requestOne none]).length < 2 ^ 32 ∧
    ∃ m m' result,
      Machine.run fillStep (build (.some 3) none 0) [requestOne (some 7)] = some m ∧
      m.fill (requestOne none) = some (m', result) ∧
      (result = .ok () → ∀ key ∈ [1],
        ((m'.viewGet id key).isSome ↔
          ((none : Option (ℕ → Option ℕ)).bind (· key)).isSome ∨
          ((Capacity.some 3).resolve 0 ≠ some 0 ∧ (m.get key).isSome) ∨
          ∃ i value, [1][i]? = some key ∧ (requestOne none).fetch i key = .ok (some value))) ∧
      ((Capacity.some 3).resolve 0 ≠ some 0 → ∀ key ∈ [1], ∀ value,
        m.get key = some value → m'.get key = some value) ∧
      (∀ key, (m'.get key).isSome → (none : Option (ℕ → Option ℕ)).bind (· key) = none) ∧
      ∀ limit, (Capacity.some 3).resolve 0 = some limit →
        m'.map.length ≤ max limit ([1] : List ℕ).dedup.length :=
  ⟨by decide, fill_serves_requests (.some 3) none 0 id [requestOne (some 7)] (requestOne none)
    (by decide)⟩

/-- Without capacity, a fill drops the entry of a key it is asked for, and a fetch that finds
nothing leaves the key without a vector. -/
theorem fill_without_capacity_drops_cached :
    ∃ m m' : Map ℕ ℕ ℕ,
      Machine.run fillStep (build .none none 0) [requestOne (some 7)] = some m ∧
      m.fill (requestOne none) = some (m', .ok ()) ∧
      m.get 1 = some 7 ∧ m'.get 1 = none ∧ m'.viewGet id 1 = none :=
  ⟨_, _, rfl, rfl, rfl, rfl, rfl⟩

end DiskAnn.WorkingSet.Map
