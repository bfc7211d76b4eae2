import DiskAnn.Inmem.Store
import DiskAnn.Machine.Ends

/-! # The store while one call at a time is made

The state of the store without its history, in which the code of a call can be followed from one
operation to the next. The buckets handed out for scanning are counted, as their counter wraps.
-/

namespace DiskAnn.Inmem

open Machine Prog List Function Nat

namespace Epoch

/-- The registry without its history. -/
structure Plain (n : ℕ) where
  guards : Fin n → ℕ
  hint : ℕ
  epoch : ℕ
  drain : Bool
  retiring : Fin 4 → List ℕ

def Registry.plain {n : ℕ} (s : Registry n) : Plain n where
  guards := s.guards
  hint := s.hint
  epoch := s.epoch
  drain := s.drain
  retiring q := (s.retiring q).map fun entry => entry.id.toNat

def Plain.steps {n : ℕ} : Steps (interface n) (Plain n) := fun o s =>
  match o with
  | .guardCheck => (s, s.epoch)
  | .fetchAddHint => ({ s with hint := (s.hint + 1) % wordSize }, s.hint)
  | .loadGuard slot => (s, s.guards slot)
  | .casGuard slot epoch =>
      if s.guards slot = 0 then ({ s with guards := update s.guards slot epoch }, true)
      else (s, false)
  | .guardRecheck _ _ => (s, s.epoch)
  | .storeGuard slot epoch => ({ s with guards := update s.guards slot epoch }, ())
  | .push q id =>
      ({ s with retiring := update s.retiring q (s.retiring q ++ [id.toNat]) }, ())
  | .dropGuard slot => ({ s with guards := update s.guards slot 0 }, ())
  | .tryLock => if s.drain then (s, false) else ({ s with drain := true }, true)
  | .waitingCheck => (s, s.epoch)
  | .scanGuard slot => (s, s.guards slot)
  | .fetchAddEpoch => ({ s with epoch := (s.epoch + 1) % wordSize }, s.epoch)
  | .pop q => ({ s with retiring := update s.retiring q (s.retiring q).tail },
      (s.retiring q).head?.map UInt32.ofNat)
  | .len q => (s, (s.retiring q).length)
  | .unlock => ({ s with drain := false }, ())

theorem map_update {n : ℕ} (retiring : Fin 4 → List (Retired n)) (q : Fin 4) (entries : List (Retired n)) :
    (fun q' => (update retiring q entries q').map fun entry => entry.id.toNat) =
      update (fun q' => (retiring q').map fun entry => entry.id.toNat) q
        (entries.map fun entry => entry.id.toNat) :=
  funext fun q' => apply_update (fun _ entries => entries.map fun entry => entry.id.toNat)
    retiring q entries q'

open Plain

open Registry

theorem plain_simulates {n : ℕ} {τ : Type} :
    Simulates (exec : Semantics (interface n) τ (Registry n)) steps plain := by
  intro task o s
  cases o with
  | casGuard slot epoch =>
    by_cases free : s.guards slot = 0 <;> simp [exec, steps, plain, free]
  | guardRecheck slot epoch =>
    by_cases same : s.epoch = epoch <;>
      simp [exec, steps, plain, recheck, same]
  | push q id =>
    simp only [exec, steps, plain, push, Option.map_some]
    rw [map_update, map_append, map_singleton]
  | tryLock => cases locked : s.drain <;> simp [exec, steps, plain, locked]
  | pop q =>
    cases entries : s.retiring q with
    | nil => simp [exec, steps, plain, pop_nil entries, entries]
    | cons entry rest =>
      simp only [exec, pop_cons entries, Option.map_some, steps, plain,
        map_update, entries, map_cons, tail_cons, head?_cons, UInt32.ofNat_toNat]
  | len q => simp [exec, steps, plain]
  | _ => rfl

/-! ## The code of the registry -/

section Code

variable {n : ℕ} {mayPanic : Prop} {s : Plain n}

/-- With no change of the epoch between, the first recheck confirms it. -/
theorem settle_ends {slot : Fin n} {epoch : ℕ} (current : s.epoch = epoch)
    {Q : ℕ × Bool → Plain n → Prop} (post : Q (epoch, false) s) :
    Ends steps mayPanic (settle slot epoch) s Q := by
  refine .iterate ?_
  rw [ends_op_iff]
  simpa [steps, current] using post

/-- A guard slot is free and taken for the current epoch, or none is found. -/
def Registered (s : Plain n) (r : Except Unavailable (Guard n)) (s' : Plain n) : Prop :=
  (∃ error, r = .error error ∧ s' = s) ∨
    ∃ slot, s.guards slot = 0 ∧ r = .ok ⟨slot, queue s.epoch⟩ ∧
      s' = { s with guards := update s.guards slot s.epoch }

theorem register_ends [NeZero n] (hint : ℕ) (indices : List ℕ) :
    Ends steps mayPanic (register s.epoch hint indices) s (Registered s) := by
  induction indices with
  | nil => exact .ret (.inl ⟨_, rfl, rfl⟩)
  | cons i rest ih =>
    rw [register, ends_op_iff]
    by_cases free : s.guards (Fin.ofNat n ((hint + i) % wordSize)) = 0
    · simp only [steps, free, if_true]
      rw [ends_op_iff]
      simp only [steps, free]
      refine Ends.bind (settle_ends ?_ ?_)
      · rfl
      · exact .ret (.inr ⟨_, free, rfl, rfl⟩)
    · simp only [steps, free]
      exact ih

theorem guard_ends [NeZero n] : Ends steps mayPanic (guard : Code n _) s
    fun r s' => ∃ hint, Registered { s with hint } r s' := by
  rw [guard, ends_op_iff]
  rw [ends_op_iff]
  exact (register_ends (s := { s with hint := (s.hint + 1) % wordSize }) s.hint (range n)).mono
    fun r s' registered => ⟨_, registered⟩

/-- The least epoch of the guards that are taken, or one that is less. -/
theorem scan_ends (least : ℕ) (slots : List (Fin n)) : Ends steps mayPanic (scan least slots) s
    fun r s' => s' = s ∧ r ≤ least ∧ ((∀ slot, s.guards slot = 0) → r = least) := by
  induction slots generalizing least with
  | nil => exact .ret ⟨rfl, le_rfl, fun _ => rfl⟩
  | cons slot rest ih =>
    rw [scan, ends_op_iff]
    change Ends steps mayPanic
      (scan (if s.guards slot ≠ 0 then min least (s.guards slot) else least) rest) s _
    refine (ih _).mono fun r s' ⟨same, bound, unguarded⟩ => ⟨same, ?_, fun free => ?_⟩
    · split_ifs at bound
      · exact bound.trans (min_le_left _ _)
      · exact bound
    · rw [unguarded free, if_neg (not_not.mpr (free slot))]

/-- The epoch is left as it is, or one queue is to be drained. The latter if there is no guard. -/
theorem tryAdvance_ends (unlocked : s.drain = false) (bounded : s.epoch < wordSize)
    (exhausted : s.epoch = wordSize - 1 → mayPanic) :
    Ends steps mayPanic (tryAdvance : Code n _) s fun r s' =>
      (r = none ∧ s' = s ∧ ∃ slot, s.guards slot ≠ 0) ∨
        (r = some ⟨lastQueue s.epoch⟩ ∧ s.epoch + 1 < wordSize ∧
          s' = { s with drain := true, epoch := s.epoch + 1 }) := by
  have unlock : ∀ s' : Plain n, s' = { s with drain := true } →
      { s' with drain := false } = s := by
    rintro s' rfl
    rw [← unlocked]
  rw [tryAdvance, ends_op_iff]
  simp only [steps, unlocked]
  refine Ends.then (M := fun r s' => s' = { s with drain := true } ∧ r.2 ≤ s.epoch ∧
    (r.1 = true → r.2 = s.epoch) ∧ ((∀ slot, s.guards slot = 0) → r.1 = true)) ?_ ?_
  · rw [canAdvance, ends_op_iff]
    refine Ends.then (scan_ends s.epoch (finRange n)) ?_
    rintro least s' ⟨rfl, bound, unguarded⟩
    exact .ret ⟨rfl, bound, beq_iff_eq.mp, fun free => beq_iff_eq.mpr (unguarded free)⟩
  · rintro ⟨can, current⟩ s' ⟨rfl, bound, exact', free⟩
    split_ifs with last advance
    · rw [ends_op_iff]
      exact .panic (exhausted (by unfold wordSize at *; omega))
    · obtain rfl := exact' advance
      have room : s.epoch + 1 < wordSize := by
        omega
      rw [ends_op_iff]
      simp only [steps]
      rw [mod_eq_of_lt room]
      exact .ret (.inr ⟨rfl, room, rfl⟩)
    · rw [ends_op_iff]
      refine .ret (.inl ⟨rfl, unlock _ rfl, ?_⟩)
      by_contra unguarded
      push Not at unguarded
      exact advance (free unguarded)

end Code

end Epoch

namespace Store

/-- The store without its history, and the number of buckets handed out. -/
structure Plain (n : ℕ) where
  registry : Epoch.Plain n
  tags : ℕ → Tag
  mirrors : ℕ → Tag
  recycled : List ℕ
  next : ℕ
  scanBucket : ℕ
  handed : ℕ

/-- The buckets that an operation hands out. -/
def Op.buckets {n : ℕ} : Op n → ℕ
  | .fetchAddScanBucket => 1
  | _ => 0

/-- What each atomic access does, with the buckets handed out so far. -/
def countingExec {n : ℕ} {τ : Type} [DecidableEq τ] (layout : Layout) :
    Semantics (interface n) τ (State n τ × ℕ) := fun task o s =>
  (exec layout task o s.1).map fun out => ((out.1, s.2 + o.buckets), out.2)

def State.plain {n : ℕ} {τ : Type} (s : State n τ × ℕ) : Plain n where
  registry := s.1.registry.plain
  tags := s.1.tags
  mirrors := s.1.mirrors
  recycled := s.1.recycled
  next := s.1.next
  scanBucket := s.1.scanBucket
  handed := s.2

def Plain.steps {n : ℕ} (layout : Layout) : Steps (interface n) (Plain n) := fun o s =>
  match o with
  | .epoch o => ({ s with registry := (Epoch.Plain.steps o s.registry).1 },
      (Epoch.Plain.steps o s.registry).2)
  | .loadTag i => (s, s.tags i)
  | .casTag i old new =>
      if s.tags i = old then ({ s with tags := update s.tags i new }, true) else (s, false)
  | .storeTag i tag => ({ s with tags := update s.tags i tag }, ())
  | .loadMirror i => (s, s.mirrors i)
  | .storeMirror i tag => ({ s with mirrors := update s.mirrors i tag }, ())
  | .read _ i => (s, s.mirrors i)
  | .writeByte _ _ _ => (s, ())
  | .popRecycled => ({ s with recycled := s.recycled.tail }, s.recycled.head?)
  | .pushRecycled id =>
      if s.recycled.length < layout.recycleCapacity then
        ({ s with recycled := s.recycled ++ [id] }, true)
      else (s, false)
  | .loadNext => (s, s.next)
  | .casNext next =>
      if s.next = next then ({ s with next := next + 1 }, .ok next) else (s, .error s.next)
  | .fetchAddScanBucket =>
      ({ s with scanBucket := (s.scanBucket + 1) % 2 ^ 32, handed := s.handed + 1 }, s.scanBucket)

open State

theorem plain_simulates {n : ℕ} {τ : Type} [DecidableEq τ] (layout : Layout) :
    Simulates (countingExec layout : Semantics (interface n) τ (State n τ × ℕ)) (Plain.steps layout)
      plain := by
  rintro task o ⟨s, handed⟩
  cases o with
  | epoch o =>
    have step := Epoch.plain_simulates task o s.registry
    obtain ⟨⟨registry, r⟩, ran, same⟩ := Option.map_eq_some_iff.mp step
    have state : plain (s.withRegistry registry o, handed + (Op.epoch o).buckets) =
        { plain (s, handed) with registry := registry.plain } := by
      cases o <;> rfl
    simp only [countingExec, exec, ran, Option.map_some, Plain.steps, state]
    rw [show (plain (s, handed)).registry = s.registry.plain from rfl, ← same]
  | casTag i old new =>
    by_cases same : s.tags i = old <;>
      simp [countingExec, exec, Plain.steps, plain, same, Op.buckets, setOwned]
  | pushRecycled id =>
    by_cases room : s.recycled.length < layout.recycleCapacity <;>
      simp [countingExec, exec, Plain.steps, plain, room, Op.buckets]
  | casNext next =>
    by_cases same : s.next = next <;>
      simp [countingExec, exec, Plain.steps, plain, same, Op.buckets]
  | read slot i =>
    by_cases readable : (s.mirrors i).canRead <;>
      simp [countingExec, exec, Plain.steps, plain, readable, Op.buckets]
  | _ => rfl

/-! ## The code of the store -/

/-- The number of buckets of a scan over all slots. -/
def Layout.buckets (layout : Layout) : ℕ := (layout.unfrozen + scanSize - 1) / scanSize

/-- The ids of the bucket that a count of the scan counter stands for. -/
def Layout.bucket (layout : Layout) (count : ℕ) : List ℕ :=
  range' (count % layout.buckets * scanSize)
    (min (count % layout.buckets * scanSize + scanSize) layout.unfrozen -
      count % layout.buckets * scanSize)

/-- What `scan_acquire` has to scan at least. -/
def Layout.quota (layout : Layout) : ℕ := (layout.unfrozen + retryLimit - 1) / retryLimit

namespace Plain

variable {n : ℕ} (s : Plain n)

/-- Further buckets handed out. -/
def advance (count : ℕ) : Plain n :=
  { s with scanBucket := (s.scanBucket + count) % 2 ^ 32, handed := s.handed + count }

/-- A slot that is now owned. -/
def claim (i : ℕ) : Plain n := { s with tags := update s.tags i .owned }

theorem claim_tags_self (i : ℕ) : (s.claim i).tags i = .owned :=
  update_self _ _ _

theorem claim_tags_of_ne {i j : ℕ} (ne : j ≠ i) :
    (s.claim i).tags j = s.tags j :=
  update_of_ne ne _ _

theorem advance_advance (first second : ℕ) :
    (s.advance first).advance second = s.advance (first + second) := by
  simp only [advance, mod_add_mod, add_assoc]

theorem advance_zero {s : Plain n} (counter : s.scanBucket < 2 ^ 32) : s.advance 0 = s := by
  simp only [advance, add_zero, mod_eq_of_lt counter]

/-- Everything in a queue is available again, and some of it to be recycled. -/
def release (q : Fin 4) (extra : List ℕ) : Plain n :=
  { s with
    registry := { s.registry with retiring := update s.registry.retiring q [] }
    tags := fun i => if i ∈ s.registry.retiring q then .available else s.tags i
    mirrors := fun i => if i ∈ s.registry.retiring q then .available else s.mirrors i
    recycled := s.recycled ++ extra }

end Plain

section Code

variable {n : ℕ} {layout : Layout} {mayPanic : Prop} {s : Plain n}

/-- Code of the registry leaves the rest of the store alone. -/
theorem registry_ends {α : Type} {code : Epoch.Code n α} {Q : α → Epoch.Plain n → Prop}
    (ends : Ends Epoch.Plain.steps mayPanic code s.registry Q) :
    Ends (Plain.steps layout) mayPanic (registry code) s fun value s' =>
      Q value s'.registry ∧ s' = { s with registry := s'.registry } :=
  Ends.lift Plain.registry (fun s registry => { s with registry }) (fun _ _ => rfl) (fun _ => rfl)
    (fun _ _ _ => rfl) (fun _ _ => ⟨rfl, rfl⟩) ends

theorem pop_nil (empty : s.recycled = []) : Plain.steps layout .popRecycled s = (s, none) := by
  simp only [Plain.steps, empty, tail_nil, head?_nil]
  rw [← empty]

theorem load_tag {i : ℕ} {tag : Tag} (current : s.tags i = tag) :
    Plain.steps layout (.loadTag i) s = (s, tag) :=
  Prod.ext rfl current

theorem load_mirror {i : ℕ} {tag : Tag} (current : s.mirrors i = tag) :
    Plain.steps layout (.loadMirror i) s = (s, tag) :=
  Prod.ext rfl current

theorem freelistPop_ends : Ends (Plain.steps layout) mayPanic (freelistPop layout) s fun r s' =>
    (∃ id rest, s.recycled = id :: rest ∧ r = some id ∧ s' = { s with recycled := rest }) ∨
      (s.recycled = [] ∧ s.next < layout.unfrozen ∧ r = some s.next ∧
        s' = { s with next := s.next + 1 }) ∨
      (s.recycled = [] ∧ ¬ s.next < layout.unfrozen ∧ r = none ∧ s' = s) := by
  cases recycled : s.recycled with
  | cons id rest =>
    refine .op (t := { s with recycled := rest }) (r := some id) (by simp [Plain.steps, recycled]) ?_
    exact .ret (.inl ⟨id, rest, rfl, rfl, rfl⟩)
  | nil =>
    refine .op (pop_nil recycled) (.op rfl (.iterate ?_))
    split_ifs with room
    · refine .op (if_pos rfl) ?_
      exact .ret (.inr (.inl ⟨rfl, room, rfl, by rw [recycled]⟩))
    · exact .ret (.inr (.inr ⟨rfl, room, rfl, rfl⟩))

/-- An id is kept for recycling or left out. -/
theorem freelistPush_ends (id : ℕ) : Ends (Plain.steps layout) mayPanic (freelistPush layout id) s
    fun _ s' => ∃ extra, s' = { s with recycled := s.recycled ++ extra } ∧
      (extra = [id] ∧ id < layout.unfrozen ∨ extra = [] ∧
        (id < layout.unfrozen → layout.recycleCapacity ≤ s.recycled.length)) := by
  unfold freelistPush
  split_ifs with below
  · rw [ends_last_op_iff]
    by_cases room : s.recycled.length < layout.recycleCapacity
    · simp only [Plain.steps, if_pos room]
      exact ⟨[id], rfl, .inl ⟨rfl, below⟩⟩
    · simp only [Plain.steps, if_neg room]
      exact ⟨[], by rw [append_nil], .inr ⟨rfl, fun _ => not_lt.mp room⟩⟩
  · exact .ret ⟨[], by rw [append_nil], .inr ⟨rfl, fun below' => absurd below' below⟩⟩

theorem freelistScan_ends (some : layout.unfrozen ≠ 0) :
    Ends (Plain.steps layout) mayPanic (freelistScan layout) s fun chunk s' =>
      chunk = layout.bucket s.scanBucket ∧ s' = s.advance 1 := by
  rw [freelistScan, if_neg some, ends_op_iff]
  exact .ret ⟨rfl, rfl⟩

theorem tryAcquire_ends (i : ℕ) : Ends (Plain.steps layout) mayPanic (tryAcquire i) s fun r s' =>
    (s.tags i = .available ∧ r = some ⟨i⟩ ∧ s' = s.claim i) ∨
      (s.tags i ≠ .available ∧ r = none ∧ s' = s) := by
  rw [tryAcquire, ends_op_iff]
  by_cases free : s.tags i = .available
  · simp only [Plain.steps, free, ne_eq, not_true_eq_false, if_false]
    rw [ends_op_iff]
    simp only [Plain.steps, free]
    exact .ret (.inl ⟨trivial, rfl, rfl⟩)
  · simp only [Plain.steps, ne_eq, free, not_false_eq_true]
    exact .ret (.inr ⟨trivial, rfl, rfl⟩)

theorem slot_ends {i : ℕ} (below : i < layout.total) :
    Ends (Plain.steps layout) mayPanic (slot layout i) s fun r s' =>
      (s.tags i = .available ∧ r = some ⟨i⟩ ∧ s' = s.claim i) ∨
        (s.tags i ≠ .available ∧ r = none ∧ s' = s) := by
  rw [slot, if_pos below]
  exact tryAcquire_ends i

/-- Ids that are available, each once. -/
structure Spare (layout : Layout) (s : Plain n) (ids extra : List ℕ) : Prop where
  sublist : extra.Sublist ids
  spare : ∀ i ∈ extra, i < layout.unfrozen ∧ s.tags i = .available

theorem Spare.nil (layout : Layout) (s : Plain n) (ids : List ℕ) : Spare layout s ids [] :=
  ⟨nil_sublist _, forall_mem_nil _⟩

/-- With a slot in hand, the rest of a chunk is only looked through for more. -/
theorem scanChunk_some_ends (acquired : Slot) {chunk : List ℕ} (below : ∀ i ∈ chunk, i < layout.total) :
    Ends (Plain.steps layout) mayPanic (scanChunk layout (some acquired) chunk) s fun r s' =>
      r = some acquired ∧ ∃ extra, Spare layout s chunk extra ∧
        s' = { s with recycled := s.recycled ++ extra } := by
  induction chunk generalizing s with
  | nil => exact .ret ⟨rfl, [], .nil layout s [], by rw [append_nil]⟩
  | cons i rest ih =>
    obtain ⟨first, later⟩ := forall_mem_cons.mp below
    rw [scanChunk, if_pos first]
    refine .op rfl ?_
    split_ifs with free
    · refine Ends.then (freelistPush_ends i) ?_
      rintro - s' ⟨pushed, rfl, kept⟩
      refine (ih later).mono fun r s' ⟨same, extra, spare, state⟩ => ⟨same, pushed ++ extra, ?_, ?_⟩
      · rcases kept with ⟨rfl, bound⟩ | ⟨rfl, -⟩
        · exact ⟨spare.sublist.cons_cons i, forall_mem_cons.mpr ⟨⟨bound, free⟩, spare.spare⟩⟩
        · exact ⟨spare.sublist.cons i, spare.spare⟩
      · rw [state, append_assoc]
    · exact (ih later).mono fun r s' ⟨same, extra, spare, state⟩ =>
        ⟨same, extra, ⟨spare.sublist.cons i, spare.spare⟩, state⟩

/-- A slot has been claimed, and others found on the way. -/
def Found (layout : Layout) (s : Plain n) (chunk : List ℕ) (r : Option Slot) (s' : Plain n) : Prop :=
  ∃ i extra, i ∈ chunk ∧ s.tags i = .available ∧ r = some ⟨i⟩ ∧ i ∉ extra ∧
    Spare layout s chunk extra ∧ s' = { s.claim i with recycled := s.recycled ++ extra }

theorem scanChunk_ends {chunk : List ℕ} (below : ∀ i ∈ chunk, i < layout.total) (nodup : chunk.Nodup) :
    Ends (Plain.steps layout) mayPanic (scanChunk layout none chunk) s fun r s' =>
      ((∀ i ∈ chunk, s.tags i ≠ .available) ∧ r = none ∧ s' = s) ∨ Found layout s chunk r s' := by
  induction chunk with
  | nil => exact .ret (.inl ⟨forall_mem_nil _, rfl, rfl⟩)
  | cons i rest ih =>
    obtain ⟨first, later⟩ := forall_mem_cons.mp below
    obtain ⟨apart, nodup⟩ := nodup_cons.mp nodup
    rw [scanChunk, if_pos first]
    refine .op rfl ?_
    split_ifs with free
    · refine Ends.then (tryAcquire_ends i) ?_
      rintro r s' (⟨-, rfl, rfl⟩ | ⟨taken, -, -⟩)
      · refine (scanChunk_some_ends ⟨i⟩ later).mono fun r s' ⟨same, extra, spare, state⟩ =>
          .inr ⟨i, extra, mem_cons_self, free, same, ?_, ?_, state⟩
        · exact fun mem => apart (spare.sublist.subset mem)
        · refine ⟨spare.sublist.cons i, fun j mem => ?_⟩
          have ne : j ≠ i := ne_of_mem_of_not_mem (spare.sublist.subset mem) apart
          obtain ⟨bound, tag⟩ := spare.spare j mem
          exact ⟨bound, (s.claim_tags_of_ne ne).symm.trans tag⟩
      · exact absurd free taken
    · refine (ih later nodup).mono fun r s' res => ?_
      rcases res with ⟨taken, same, state⟩ | ⟨j, extra, mem, tag, same, notMem, spare, state⟩
      · exact .inl ⟨forall_mem_cons.mpr ⟨free, taken⟩, same, state⟩
      · exact .inr ⟨j, extra, mem_cons_of_mem _ mem, tag, same, notMem,
          ⟨spare.sublist.cons i, spare.spare⟩, state⟩

theorem mem_bucket {layout : Layout} {count i : ℕ} (mem : i ∈ layout.bucket count) :
    i < layout.unfrozen := by
  rw [Layout.bucket, mem_range'_1] at mem
  omega

theorem nodup_bucket (layout : Layout) (count : ℕ) : (layout.bucket count).Nodup := nodup_range'

theorem buckets_pos {layout : Layout} (some : layout.unfrozen ≠ 0) : 0 < layout.buckets := by
  unfold Layout.buckets scanSize
  omega

theorem length_bucket_pos {layout : Layout} (some : layout.unfrozen ≠ 0) (count : ℕ) :
    0 < (layout.bucket count).length := by
  have index := mod_lt count (buckets_pos some)
  rw [Layout.bucket, length_range']
  unfold Layout.buckets at index ⊢
  unfold scanSize at *
  omega

/-- The ids in the next buckets that are handed out. -/
def Plain.ahead (layout : Layout) (s : Plain n) (count : ℕ) : ℕ :=
  ∑ j ∈ Finset.range count, (layout.bucket ((s.scanBucket + j) % 2 ^ 32)).length

/-- The buckets handed out since then hold nothing that is available. -/
structure Searched (layout : Layout) (s : Plain n) (count quota : ℕ) : Prop where
  taken : ∀ j < count, ∀ i ∈ layout.bucket ((s.scanBucket + j) % 2 ^ 32), s.tags i ≠ .available
  quota : quota ≤ s.ahead layout count

/-- Enough is searched in vain, and no more than that, or a slot is found. -/
theorem scanAcquire_ends (empty : s.recycled = []) (counter : s.scanBucket < 2 ^ 32) :
    Ends (Plain.steps layout) mayPanic (scanAcquire layout) s fun r s' =>
      (∃ count, r = none ∧ s' = s.advance count ∧ Searched layout s count layout.quota ∧
        ∀ fewer < count, s.ahead layout fewer < layout.quota) ∨
        ∃ count, s.ahead layout count < layout.quota ∧ Found layout (s.advance (count + 1))
          (layout.bucket ((s.scanBucket + count) % 2 ^ 32)) r s' := by
  refine Ends.repeat (fun b s₁ => ∃ count, s₁ = s.advance count ∧
      (∀ j < count, ∀ i ∈ layout.bucket ((s.scanBucket + j) % 2 ^ 32), s.tags i ≠ .available) ∧
      (∀ fewer < count, s.ahead layout fewer < layout.quota) ∧
      b.1 = layout.quota - s.ahead layout count) (fun b _ => b.1)
    ⟨0, (Plain.advance_zero counter).symm, fun j bound => absurd bound (not_lt_zero j),
      fun j bound => absurd bound (j.not_lt_zero), ?_⟩ ?_
  · rfl
  rintro ⟨remaining, chunks⟩ s₁ ⟨count, rfl, taken, short, rest⟩
  dsimp only at rest ⊢
  by_cases more : remaining ≠ 0
  · rw [if_pos more]
    have some : layout.unfrozen ≠ 0 := by
      unfold Layout.quota retryLimit at rest
      omega
    have within : s.ahead layout count < layout.quota := by omega
    refine Ends.then (freelistScan_ends some) ?_
    rintro chunk s₁ ⟨chunk_eq, rfl⟩
    have bucket : chunk = layout.bucket ((s.scanBucket + count) % 2 ^ 32) := chunk_eq
    have length : 0 < chunk.length := chunk_eq ▸ length_bucket_pos some _
    rw [Plain.advance_advance]
    refine Ends.then (scanChunk_ends (fun i mem => ?_) ?_) ?_
    · rw [bucket] at mem
      exact (mem_bucket mem).trans layout.unfrozen_lt
    · rw [bucket]
      exact nodup_bucket layout _
    rintro r s₁ (⟨vain, rfl, rfl⟩ | found)
    · have further : ∀ j < count + 1, ∀ i ∈ layout.bucket ((s.scanBucket + j) % 2 ^ 32),
          s.tags i ≠ .available := by
        intro j bound
        obtain bound | rfl := Nat.lt_succ_iff_lt_or_eq.mp bound
        · exact taken j bound
        · exact bucket ▸ vain
      have short' : ∀ fewer < count + 1, s.ahead layout fewer < layout.quota := by
        intro fewer bound
        obtain bound | rfl := Nat.lt_succ_iff_lt_or_eq.mp bound
        · exact short fewer bound
        · exact within
      have rest' : remaining - chunk.length = layout.quota - s.ahead layout (count + 1) := by
        rw [Plain.ahead, Finset.sum_range_succ, ← Plain.ahead, ← bucket]
        omega
      have less : remaining - chunk.length < remaining := by omega
      by_cases check : chunks + 1 = 4
      · rw [if_pos check]
        refine .op (pop_nil empty) (.ret ?_)
        exact ⟨⟨count + 1, rfl, further, short', rest'⟩, less⟩
      · rw [if_neg check]
        exact .ret ⟨⟨count + 1, rfl, further, short', rest'⟩, less⟩
    · rw [bucket] at found
      obtain ⟨i, extra, mem, tag, rfl, found⟩ := found
      exact .ret (.inr ⟨count, within, i, extra, mem, tag, rfl, found⟩)
  · rw [if_neg more]
    exact .ret (.inl ⟨count, rfl, rfl, ⟨taken, by omega⟩, short⟩)

/-- What is recycled of a queue that is drained. -/
structure Drained (layout : Layout) (s : Plain n) (ids extra : List ℕ) : Prop where
  sublist : extra.Sublist ids
  below : ∀ i ∈ extra, i < layout.unfrozen
  some : ids ≠ [] → (∀ i ∈ ids, i < layout.unfrozen) → s.recycled.length < layout.recycleCapacity →
    extra ≠ []

/-- The state after the first id of a queue is taken and its slot made available. -/
def Plain.freeFirst (s : Plain n) (q : Fin 4) (i : ℕ) (rest extra : List ℕ) : Plain n :=
  { s with
    registry := { s.registry with retiring := update s.registry.retiring q rest }
    tags := update s.tags i .available
    mirrors := update s.mirrors i .available
    recycled := s.recycled ++ extra }

theorem Plain.freeFirst_release (s : Plain n) {q : Fin 4} {i : ℕ} {rest : List ℕ}
    (queue : s.registry.retiring q = i :: rest) (first extra : List ℕ) :
    (s.freeFirst q i rest first).release q extra = s.release q (first ++ extra) := by
  simp only [release, freeFirst, queue, update_idem, append_assoc]
  congr 1 <;> funext j <;> by_cases same : j = i <;> simp [same]

theorem reclaim_ends {q : Fin 4} {ids : List ℕ} (queue : s.registry.retiring q = ids)
    (retiring : ∀ i ∈ ids, i < layout.total ∧ s.tags i = .retiring ∧ s.mirrors i = .retiring)
    (nodup : ids.Nodup) : Ends (Plain.steps layout) mayPanic (reclaim layout ⟨q⟩) s fun _ s' =>
      ∃ extra, Drained layout s ids extra ∧ s' = s.release q extra := by
  induction ids generalizing s with
  | nil =>
    have same : update s.registry.retiring q [] = s.registry.retiring :=
      update_eq_self_iff.mpr queue.symm
    refine .iterate (.op (t := s) (r := none) ?_ (.ret ⟨[], ⟨nil_sublist _,
      forall_mem_nil _, fun some => absurd rfl some⟩, ?_⟩))
    · simp [Plain.steps, Epoch.Plain.steps, queue, same]
    · simp [Plain.release, queue, same]
  | cons i rest ih =>
    obtain ⟨⟨below, tag, mirror⟩, later⟩ := forall_mem_cons.mp retiring
    obtain ⟨apart, distinct⟩ := nodup_cons.mp nodup
    obtain ⟨id, rfl⟩ : ∃ id : UInt32, id.toNat = i := by
      refine ⟨UInt32.ofNat i, ?_⟩
      exact mod_eq_of_lt (below.trans layout.total_lt)
    refine .iterate (.op (t := { s with registry := { s.registry with
      retiring := update s.registry.retiring q rest } }) (r := some id) ?_ ?_)
    · simp only [Plain.steps, Epoch.Plain.steps, queue, tail_cons, head?_cons,
        Option.map_some, UInt32.ofNat_toNat]
    dsimp only
    rw [if_pos below]
    refine .op (load_mirror mirror) ?_
    refine .op rfl (.op (load_tag tag) ?_)
    refine .op rfl (Ends.then (freelistPush_ends id.toNat) ?_)
    rintro - s' ⟨pushed, rfl, kept⟩
    refine .ret ((ih (s := s.freeFirst q id.toNat rest pushed) ?_ ?_ distinct).mono ?_)
    · exact update_self _ _ _
    · intro j mem
      have ne : j ≠ id.toNat := ne_of_mem_of_not_mem mem apart
      simp only [Plain.freeFirst, update_of_ne ne]
      exact later j mem
    · rintro - s' ⟨extra, drained, rfl⟩
      refine ⟨pushed ++ extra, ?_, s.freeFirst_release queue pushed extra⟩
      rcases kept with ⟨rfl, bound⟩ | ⟨rfl, full⟩
      · exact ⟨drained.sublist.cons_cons _, forall_mem_cons.mpr ⟨bound, drained.below⟩,
          fun _ _ _ => cons_ne_nil _ _⟩
      · refine ⟨drained.sublist.cons _, drained.below, fun _ bounds room => ?_⟩
        exact absurd room (not_lt.mpr (full (bounds _ mem_cons_self)))

/-- The next epoch, with one queue drained. -/
def Plain.nextEpoch (s : Plain n) (extra : List ℕ) : Plain n :=
  let s' := s.release (Epoch.lastQueue s.registry.epoch) extra
  { s' with registry := { s'.registry with epoch := s.registry.epoch + 1 } }

/-- The epoch stays, held back by a guard, or the next one begins. -/
theorem tryDrain_ends (unlocked : s.registry.drain = false)
    (bounded : s.registry.epoch < Epoch.wordSize)
    (exhausted : s.registry.epoch = Epoch.wordSize - 1 → mayPanic)
    (retiring : ∀ i ∈ s.registry.retiring (Epoch.lastQueue s.registry.epoch),
      i < layout.total ∧ s.tags i = .retiring ∧ s.mirrors i = .retiring)
    (nodup : (s.registry.retiring (Epoch.lastQueue s.registry.epoch)).Nodup) :
    Ends (Plain.steps layout) mayPanic (tryDrain layout) s fun _ s' =>
      (s' = s ∧ ∃ slot, s.registry.guards slot ≠ 0) ∨
        (s.registry.epoch + 1 < Epoch.wordSize ∧ ∃ extra,
          Drained layout s (s.registry.retiring (Epoch.lastQueue s.registry.epoch)) extra ∧
          s' = s.nextEpoch extra) := by
  refine Ends.then (registry_ends (Epoch.tryAdvance_ends unlocked bounded exhausted)) ?_
  rintro r s₁ ⟨⟨rfl, same, guarded⟩ | ⟨rfl, room, next⟩, frame⟩
  · rw [same] at frame
    exact .ret (.inl ⟨frame, guarded⟩)
  · rw [next] at frame
    refine .op rfl (Ends.then (reclaim_ends rfl ?_ ?_) ?_)
    · rw [frame]
      exact retiring
    · rw [frame]
      exact nodup
    rintro - s' ⟨extra, drained, rfl⟩
    refine .op (r := ()) ?_ (.ret (.inr ⟨room, extra, ?_, rfl⟩))
    · simp only [frame, Plain.steps, Epoch.Plain.steps, Plain.nextEpoch, Plain.release, unlocked]
    · rw [frame] at drained
      exact ⟨drained.sublist, drained.below, drained.some⟩

/-! The other calls -/

theorem retire_ends [NeZero n] (i : ℕ) : Ends (Plain.steps layout) False (retire layout i) s
    fun _ s' => (∃ hint, s' = { s with registry := { s.registry with hint } }) ∨
      ∃ hint, i < layout.total ∧ s.tags i = .published ∧ s' = { s with
        registry := { s.registry with
          hint
          retiring := update s.registry.retiring (Epoch.queue s.registry.epoch)
            (s.registry.retiring (Epoch.queue s.registry.epoch) ++ [i]) }
        tags := update s.tags i .retiring
        mirrors := update s.mirrors i .retiring } := by
  unfold retire
  split_ifs with below
  · refine .op (load_tag rfl) ?_
    by_cases reserved : (s.tags i).isReserved = true
    · rw [if_pos reserved]
      exact .ret (.inl ⟨s.registry.hint, rfl⟩)
    · rw [if_neg reserved]
      have published := Tag.eq_published_of_not_reserved (Bool.eq_false_iff.mpr reserved)
      refine Ends.then (registry_ends Epoch.guard_ends) ?_
      rintro r s₁ ⟨⟨hint, ⟨error, rfl, same⟩ | ⟨slot, free, rfl, next⟩⟩, frame⟩
      · rw [same] at frame
        exact .ret (.inl ⟨hint, frame⟩)
      · rw [next] at frame
        have word : (UInt32.ofNat i).toNat = i := by
          exact mod_eq_of_lt (below.trans layout.total_lt)
        have dropped : update (update s.registry.guards slot s.registry.epoch) slot 0 =
            s.registry.guards := by
          rw [update_idem, update_eq_self_iff]
          exact free.symm
        refine .op (t := { s₁ with tags := update s.tags i .retiring }) (r := true) ?_ ?_
        · rw [frame]
          exact if_pos rfl
        refine .op rfl (.op rfl (.op rfl (.ret (.inr ⟨hint, below, published, ?_⟩))))
        simp only [frame, Epoch.Plain.steps, dropped, word]
  · exact .ret (.inl ⟨s.registry.hint, rfl⟩)

theorem publish_ends (acquired : Slot) : Ends (Plain.steps layout) False acquired.publish s
    fun _ s' => s' = { s with
      mirrors := update s.mirrors acquired.slot .published
      tags := update s.tags acquired.slot .published } :=
  .op rfl (.op rfl (.ret rfl))

theorem drop_ends (acquired : Slot) : Ends (Plain.steps layout) False acquired.drop s
    fun _ s' => s' = { s with
      mirrors := update s.mirrors acquired.slot .available
      tags := update s.tags acquired.slot .available } :=
  .op rfl (.op rfl (.ret rfl))

theorem reader_ends [NeZero n] :
    Ends (Plain.steps layout) False (registry (n := n) Epoch.guard) s fun r s' =>
      (∃ hint, Epoch.Registered { s.registry with hint } r s'.registry) ∧
        s' = { s with registry := s'.registry } :=
  registry_ends Epoch.guard_ends

theorem dropGuard_ends (slot : Fin n) :
    Ends (Plain.steps layout) False (access (.epoch (.dropGuard slot))) s fun _ s' =>
      s' = { s with registry := { s.registry with
        guards := update s.registry.guards slot 0 } } :=
  ends_last_op_iff.mpr rfl

end Code

end Store

end DiskAnn.Inmem
