import DiskAnn.Inmem.EpochProtocol
import DiskAnn.Inmem.Store

/-! # The protocol of the slot store

A task's token is its token of the epoch registry together with a phase: the slot it has to itself
and how far it is in moving the mirror and the tag of that slot. The invariant says for every slot
that its tag and mirror are those of the phase of the one task that has it, of an id waiting in one
queue of the registry, or of a settled slot; and that whatever a live reader has read successfully
is readable, is about to be queued, or waits in a queue that cannot be drained before the reader is
dropped.
-/

namespace DiskAnn.Inmem.Store

open Machine Protocol List Function Epoch State

/-- What a task is doing with the one slot it has to itself. -/
inductive Phase
  | none
  | owned (i : ℕ)
  | publishing (i : ℕ)
  | dropping (i : ℕ)
  /-- Has set the tag to RETIRING, the mirror not yet. -/
  | retiring (i : ℕ)
  /-- Has set both to RETIRING and is about to queue the id. -/
  | retired (i : ℕ)
  | popped (i : ℕ)
  /-- Has set the mirror to AVAILABLE, the tag not yet. -/
  | released (i : ℕ)

namespace Phase

/-- The slot of a phase, with its tag and its mirror. -/
def view : Phase → Option (ℕ × Tag × Tag)
  | none => .none
  | owned i | dropping i => some (i, .owned, .available)
  | publishing i => some (i, .owned, .published)
  | retiring i => some (i, .retiring, .published)
  | retired i | popped i => some (i, .retiring, .retiring)
  | released i => some (i, .retiring, .available)

def index? (phase : Phase) : Option ℕ := phase.view.map Prod.fst

/-- The `Slot` that a task in this phase holds. -/
def held : Phase → Option (ℕ × Stage)
  | owned i => some (i, .owned)
  | publishing i => some (i, .publishing)
  | dropping i => some (i, .dropping)
  | _ => .none

/-- A CAS of the tag from `old` to `new` takes a task without a slot to a phase. -/
inductive Claim (i : ℕ) : Tag → Tag → Phase → Prop
  | acquire : Claim i .available .owned (owned i)
  | retire : Claim i .published .retiring (retiring i)

/-- A store to the mirror takes a task from one phase to the next. -/
inductive MirrorMove (i : ℕ) : Tag → Phase → Phase → Prop
  | publish : MirrorMove i .published (owned i) (publishing i)
  | abandon : MirrorMove i .available (owned i) (dropping i)
  | retire : MirrorMove i .retiring (retiring i) (retired i)
  | reclaim : MirrorMove i .available (popped i) (released i)

/-- A store to the tag ends a phase. -/
inductive TagMove (i : ℕ) : Tag → Phase → Prop
  | publish : TagMove i .published (publishing i)
  | abandon : TagMove i .available (dropping i)
  | reclaim : TagMove i .available (released i)

def Fits {n : ℕ} {τ : Type} (layout : Layout) (s : State n τ) (phase : Phase) : Prop :=
  ∀ i tag mirror, phase.view = some (i, tag, mirror) →
    i < layout.unfrozen ∧ s.tags i = tag ∧ s.mirrors i = mirror

def Apart (a b : Phase) : Prop := ∀ i, a.index? = some i → b.index? ≠ some i

end Phase

structure Token (n : ℕ) where
  epoch : Epoch.Token n
  phase : Phase

/-- Which accesses a token allows and where they take the task. -/
def protocol (n : ℕ) (layout : Layout) : Protocol (interface n) Panic (Token n) where
  pre token
    | .epoch (.push q id) =>
        (Epoch.protocol n).pre token.epoch (.push q id) ∧ token.phase = .retired id.toNat
    | .epoch (.pop q) => (Epoch.protocol n).pre token.epoch (.pop q) ∧ token.phase = .none
    | .epoch o => (Epoch.protocol n).pre token.epoch o
    | .casTag i old new =>
        i < layout.unfrozen ∧ token.phase = .none ∧ ∃ phase', Phase.Claim i old new phase'
    | .storeTag i tag => Phase.TagMove i tag token.phase
    | .storeMirror i tag => ∃ phase', Phase.MirrorMove i tag token.phase phase'
    | .read slot i => token.epoch.Guards slot ∧ i < layout.total
    | .writeByte i _ _ => token.phase = .owned i
    | .loadTag _ | .loadMirror _ | .popRecycled | .pushRecycled _ | .loadNext | .casNext _
    | .fetchAddScanBucket => True
  post token o := match o with
    | .epoch (.push q id) => fun r token' =>
        (Epoch.protocol n).post token.epoch (.push q id) r token'.epoch ∧ token'.phase = .none
    | .epoch (.pop q) => fun (r : Option UInt32) token' =>
        (Epoch.protocol n).post token.epoch (.pop q) r token'.epoch ∧
          match r with
          | none => token'.phase = .none
          | some id => token'.phase = .popped id.toNat ∧ id.toNat < layout.unfrozen
    | .epoch o => fun r token' =>
        (Epoch.protocol n).post token.epoch o r token'.epoch ∧ token'.phase = token.phase
    | .loadTag i => fun (tag : Tag) token' => token' = token ∧
        (i < layout.total → tag ≠ .frozen → i < layout.unfrozen) ∧
        (token.phase = .released i → tag = .retiring)
    | .casTag i old new => fun (claimed : Bool) token' => token'.epoch = token.epoch ∧
        if claimed then Phase.Claim i old new token'.phase else token'.phase = token.phase
    | .storeTag _ _ => fun _ token' => token' = ⟨token.epoch, .none⟩
    | .loadMirror i => fun (mirror : Tag) token' => token' = token ∧
        (token.phase = .popped i → mirror = .retiring)
    | .storeMirror i tag => fun _ token' => token'.epoch = token.epoch ∧
        Phase.MirrorMove i tag token.phase token'.phase
    | .read _ _ | .writeByte _ _ _ | .popRecycled | .pushRecycled _ | .loadNext | .casNext _
    | .fetchAddScanBucket => fun _ token' => token' = token
  mayPanic token reason := token.phase = .none ∧ reason = .epoch .epochExhausted

/-- Why a reader in `slot` may still look at slot `i`. -/
def State.Protects {n : ℕ} {τ : Type} (s : State n τ) (phases : τ → Phase) (slot : Fin n)
    (i : ℕ) : Prop :=
  (s.mirrors i).canRead = true ∨ (∃ task, phases task = .retired i) ∨
    ∃ q, ∃ entry ∈ s.registry.retiring q, entry.id.toNat = i ∧
      ∃ g, s.registry.live slot = some g ∧ entry.waiting slot = some g

/-- What holds of the slots between the accesses of any number of tasks. -/
structure SlotInv {n : ℕ} {τ : Type} (layout : Layout) (s : State n τ) (phases : τ → Phase) :
    Prop where
  frozen : ∀ i, layout.unfrozen ≤ i → i < layout.total →
    s.tags i = .frozen ∧ s.mirrors i = .frozen
  settled : ∀ i, (s.tags i = .available → s.mirrors i = .available) ∧
    (s.tags i = .published → s.mirrors i = .published)
  consistent : Consistent (Phase.Fits layout s) Phase.Apart phases
  queued : ∀ q, ∀ entry ∈ s.registry.retiring q, entry.id.toNat < layout.unfrozen ∧
    s.tags entry.id.toNat = .retiring ∧ s.mirrors entry.id.toNat = .retiring ∧
    ∀ task, (phases task).index? ≠ some entry.id.toNat
  queued_once : ∀ i, ∑ q, ((s.registry.retiring q).map (·.id.toNat)).count i ≤ 1
  reads_live : ∀ slot, s.reads slot ≠ [] → ∃ g, s.registry.live slot = some g
  reads_protected : ∀ slot, ∀ i ∈ s.reads slot, s.Protects phases slot i
  held : ∀ task, s.held task = (phases task).held

/-- What holds between the accesses of any number of tasks. -/
structure Inv {n : ℕ} {τ : Type} (layout : Layout) (s : State n τ) (tokens : τ → Token n) :
    Prop where
  epoch : Epoch.Inv s.registry fun task => (tokens task).epoch
  slots : SlotInv layout s fun task => (tokens task).phase

/-! ## Slots under the accesses of their tags and mirrors -/

section Slots

variable {n : ℕ} {τ : Type} {layout : Layout} {s : State n τ} {phases : τ → Phase} {i : ℕ}

theorem Phase.Fits.index {phase : Phase} (fits : phase.Fits layout s)
    (has : phase.index? = some i) :
    i < layout.unfrozen ∧ (s.tags i = .owned ∨ s.tags i = .retiring) := by
  cases phase <;> simp only [Phase.index?, Phase.view, Option.map_some, Option.map_none,
    Option.some.injEq, reduceCtorEq] at has <;> subst has
  all_goals
    obtain ⟨small, tag, -⟩ := fits _ _ _ rfl
    simp [small, tag]

variable (inv : SlotInv layout s phases)
include inv

/-- A slot that no reader can be looking at. -/
theorem SlotInv.unread (hidden : (s.mirrors i).canRead = false)
    (unretired : ∀ task, phases task ≠ .retired i)
    (unqueued : ∀ q, ∀ entry ∈ s.registry.retiring q, entry.id.toNat ≠ i) (slot : Fin n) :
    i ∉ s.reads slot := by
  intro mem
  obtain readable | ⟨task, retired⟩ | ⟨q, entry, queued, same, -⟩ :=
    inv.reads_protected slot i mem
  · simp [hidden] at readable
  · exact unretired task retired
  · exact unqueued q entry queued same

variable {task : τ}

theorem SlotInv.unretired (has : (phases task).index? = some i)
    (other : phases task ≠ .retired i) (task' : τ) : phases task' ≠ .retired i := by
  intro retired
  by_cases same : task' = task
  · exact other (same ▸ retired)
  · exact inv.consistent.pair task' task same i (by rw [retired]; rfl) has

variable [DecidableEq τ]

/-- A task that alone may touch slot `i` moves its tag and its mirror, and enters the phase that
says so. -/
theorem SlotInv.touch (tag mirror : Tag) (phase' : Phase)
    (small : i < layout.unfrozen)
    (alone : ∀ phase, phase.Fits layout s → (phases task).Apart phase → phase.index? ≠ some i)
    (unqueued : ∀ q, ∀ entry ∈ s.registry.retiring q, entry.id.toNat ≠ i)
    (left : ∀ j, phases task = .retired j → j = i)
    (enters : phase' = .none ∨ phase'.view = some (i, tag, mirror))
    (settled : (tag = .available → mirror = .available) ∧ (tag = .published → mirror = .published))
    (readers : ∀ slot, i ∈ s.reads slot → mirror.canRead = true ∨ phase' = .retired i) :
    SlotInv layout
      { s with
        tags := update s.tags i tag
        mirrors := update s.mirrors i mirror
        held := update s.held task phase'.held }
      (update phases task phase') := by
  have index' : ∀ j, phase'.index? = some j → j = i := by
    rcases enters with rfl | view
    · simp [Phase.index?, Phase.view]
    · simp [Phase.index?, view]
  refine {
    frozen := fun j above below => ?frozen
    settled := fun j => ?settled
    consistent := inv.consistent.update rfl ?own fun other fits apart apart' => ⟨?fits, ?apart, ?apart'⟩
    queued := fun q entry mem => ?queued
    queued_once := inv.queued_once
    reads_live := inv.reads_live
    reads_protected := fun slot j mem => ?reads
    held := fun other => ?held }
  case frozen =>
    have ne : j ≠ i := by omega
    simpa [ne] using inv.frozen j above below
  case settled =>
    by_cases same : j = i
    · subst same
      simpa using settled
    · simpa [same] using inv.settled j
  case own =>
    intro j tag' mirror' view'
    rcases enters with rfl | view
    · simp [Phase.view] at view'
    · obtain ⟨rfl, rfl, rfl⟩ : i = j ∧ tag = tag' ∧ mirror = mirror' := by
        simpa [view] using view'
      simp [small]
  case fits =>
    intro j tag' mirror' view
    have ne : j ≠ i := by
      rintro rfl
      exact alone other fits apart (by simp [Phase.index?, view])
    simpa [ne] using fits j tag' mirror' view
  case apart =>
    intro j has
    rw [index' j has]
    exact alone other fits apart
  case apart' =>
    intro j has has'
    rw [index' j has'] at has
    exact alone other fits apart has
  case queued =>
    obtain ⟨below, tagged, mirrored, free⟩ := inv.queued q entry mem
    have ne := unqueued q entry mem
    exact ⟨below, by simpa [ne] using tagged, by simpa [ne] using mirrored, (forall_update_iff phases
      fun _ phase => phase.index? ≠ some _).mpr ⟨fun has => ne (index' _ has), fun other _ => free other⟩⟩
  case reads =>
    by_cases same : j = i
    · subst same
      rcases readers slot mem with readable | retired
      · exact .inl (by simpa using readable)
      · exact .inr (.inl ⟨task, by simpa using retired⟩)
    · refine (inv.reads_protected slot j mem).imp (fun readable => ?_) (Or.imp ?_ id)
      · simpa [same] using readable
      · intro retired
        exact exists_update (fun phase => phase = Phase.retired j) retired
          fun mine => absurd (left j mine) same
  case held =>
    by_cases same : other = task
    · subst same
      simp
    · simpa [same] using inv.held other

theorem SlotInv.update_held_none (task : τ)
    (none : (phases task).held = none) : update s.held task .none = s.held := by
  rw [← none, ← inv.held task, update_eq_self]

/-- `touch` by the task that already has the slot. -/
theorem SlotInv.touchOwn (task : τ) (i : ℕ) (tag mirror : Tag)
    (phase' : Phase) (has : (phases task).index? = some i) (source : ∀ j, phases task ≠ .retired j)
    (enters : phase' = .none ∨ phase'.view = some (i, tag, mirror))
    (settled : (tag = .available → mirror = .available) ∧ (tag = .published → mirror = .published))
    (readers : mirror.canRead = true ∨ phase' = .retired i ∨ (s.mirrors i).canRead = false) :
    SlotInv layout
      { s with
        tags := update s.tags i tag
        mirrors := update s.mirrors i mirror
        held := update s.held task phase'.held }
      (update phases task phase') := by
  have unqueued : ∀ q, ∀ entry ∈ s.registry.retiring q, entry.id.toNat ≠ i := by
    rintro q entry mem rfl
    exact (inv.queued q entry mem).2.2.2 task has
  refine inv.touch tag mirror phase' ((inv.consistent.each task).index has).1
    (fun _ _ apart => apart i has) unqueued (fun j retired => absurd retired (source j)) enters
    settled fun slot mem => ?_
  rcases readers with readable | retired | hidden
  · exact .inl readable
  · exact .inr retired
  · exact absurd mem (inv.unread hidden (inv.unretired has (source i)) unqueued slot)

/-- A successful CAS of a tag. -/
theorem SlotInv.claim {old new : Tag} {phase' : Phase}
    (small : i < layout.unfrozen) (idle : phases task = .none)
    (claim : Phase.Claim i old new phase') (now : s.tags i = old) :
    SlotInv layout (s.setOwned task i new) (update phases task phase') := by
  have unclaimed : s.tags i ≠ .owned ∧ s.tags i ≠ .retiring := by
    rw [now]
    cases claim <;> decide
  have alone : ∀ phase : Phase, phase.Fits layout s → (phases task).Apart phase →
      phase.index? ≠ some i :=
    fun phase fits _ has => (fits.index has).2.elim unclaimed.1 unclaimed.2
  have unqueued : ∀ q, ∀ entry ∈ s.registry.retiring q, entry.id.toNat ≠ i := by
    rintro q entry mem rfl
    exact unclaimed.2 (inv.queued q entry mem).2.1
  have left : ∀ j, phases task = .retired j → j = i := by simp [idle]
  cases claim with
  | acquire =>
    have hidden := (inv.settled i).1 now
    have unretired : ∀ other, phases other ≠ .retired i := fun other retired =>
      unclaimed.2 (inv.consistent.each_of_eq retired _ _ _ rfl).2.1
    have moved := inv.touch .owned (s.mirrors i) (.owned i) small alone unqueued left
      (.inr (by rw [hidden]; rfl)) (by simp) fun slot mem =>
        absurd mem (inv.unread (by rw [hidden]; rfl) unretired unqueued slot)
    simpa [setOwned, Phase.held] using moved
  | retire =>
    have readable := (inv.settled i).2 now
    have moved := inv.touch .retiring (s.mirrors i) (.retiring i) small alone unqueued left
      (.inr (by rw [readable]; rfl)) (by simp) fun _ _ => .inl (by rw [readable]; rfl)
    have idle_held := inv.update_held_none task (by rw [idle]; rfl)
    simpa [setOwned, Phase.held, idle_held] using moved

/-- A store to the mirror by the task that has the slot. -/
theorem SlotInv.moveMirror {tag : Tag} {phase' : Phase}
    (move : Phase.MirrorMove i tag (phases task) phase') :
    SlotInv layout (s.setMirror task i tag) (update phases task phase') := by
  have fits := inv.consistent.each task
  have held := inv.held task
  have idle := inv.update_held_none task
  have touch := inv.touchOwn task i (s.tags i) tag phase'
  generalize phases task = phase at move fits held idle touch
  cases move with
  | publish =>
    obtain ⟨-, tagged, -⟩ := fits _ _ _ rfl
    have moved := touch rfl (by simp) (.inr (by rw [tagged]; rfl)) (by simp [tagged]) (.inl rfl)
    simpa [setMirror, held, Phase.held] using moved
  | abandon =>
    obtain ⟨-, tagged, mirrored⟩ := fits _ _ _ rfl
    have moved := touch rfl (by simp) (.inr (by rw [tagged]; rfl)) (by simp [tagged])
      (.inr (.inr (by rw [mirrored]; rfl)))
    simpa [setMirror, held, Phase.held] using moved
  | retire =>
    obtain ⟨-, tagged, -⟩ := fits _ _ _ rfl
    have moved := touch rfl (by simp) (.inr (by rw [tagged]; rfl)) (by simp [tagged])
    simpa [setMirror, held, Phase.held, idle rfl] using moved
  | reclaim =>
    obtain ⟨-, tagged, mirrored⟩ := fits _ _ _ rfl
    have moved := touch rfl (by simp) (.inr (by rw [tagged]; rfl)) (by simp [tagged])
      (.inr (.inr (by rw [mirrored]; rfl)))
    simpa [setMirror, held, Phase.held, idle rfl] using moved

/-- A store to the tag by the task that has the slot. -/
theorem SlotInv.moveTag {tag : Tag}
    (move : Phase.TagMove i tag (phases task)) :
    SlotInv layout (s.setTag task i tag) (update phases task .none) := by
  have fits := inv.consistent.each task
  have held := inv.held task
  have idle := inv.update_held_none task
  have touch := inv.touchOwn task i tag (s.mirrors i) .none
  generalize phases task = phase at move fits held idle touch
  cases move with
  | reclaim =>
    obtain ⟨-, -, mirrored⟩ := fits _ _ _ rfl
    have moved := touch rfl (by simp) (.inl rfl) (by simp [mirrored])
    simpa [setTag, held, Phase.held, idle rfl] using moved
  | _ =>
    obtain ⟨-, -, mirrored⟩ := fits _ _ _ rfl
    have moved := touch rfl (by simp) (.inl rfl) (by simp [mirrored])
    simpa [setTag, held, Phase.held] using moved

end Slots

/-! ## Slots under the accesses of the registry -/

section Registry

variable {n : ℕ} {τ : Type} {layout : Layout} {s : State n τ} {phases : τ → Phase}
  (inv : SlotInv layout s phases)
include inv

theorem SlotInv.setup {registry : Registry n}
    (retiring : registry.retiring = s.registry.retiring)
    (live : ∀ slot g, s.registry.live slot = some g → registry.live slot = some g) :
    SlotInv layout { s with registry } phases where
  frozen := inv.frozen
  settled := inv.settled
  consistent := inv.consistent
  queued := by simpa only [retiring] using inv.queued
  queued_once := by simpa only [retiring] using inv.queued_once
  reads_live slot read :=
    let ⟨g, now⟩ := inv.reads_live slot read
    ⟨g, live slot g now⟩
  reads_protected slot i member := by
    refine (inv.reads_protected slot i member).imp id (Or.imp id ?_)
    rintro ⟨q, entry, queued, same, g, now, waiting⟩
    exact ⟨q, entry, by simpa only [retiring] using queued, same, g, live slot g now, waiting⟩
  held := inv.held

theorem SlotInv.dropGuard (slot : Fin n) :
    SlotInv layout
      { s with
        registry := s.registry.dropGuard slot
        reads := update s.reads slot [] } phases := by
  have elsewhere : ∀ other, update s.reads slot [] other ≠ [] → other ≠ slot := by
    rintro other read rfl
    simp at read
  refine { inv with reads_live := fun other read => ?_, reads_protected := fun other i mem => ?_ }
  · have ne := elsewhere other read
    simpa [Registry.dropGuard, ne] using
      inv.reads_live other (by simpa [ne] using read)
  · have ne := elsewhere other (ne_nil_of_mem mem)
    refine (inv.reads_protected other i (by simpa [ne] using mem)).imp id (Or.imp id ?_)
    rintro ⟨q, entry, queued, same, g, now, waiting⟩
    exact ⟨q, entry, queued, same, g, by simpa [Registry.dropGuard, ne] using now,
      waiting⟩

theorem SlotInv.read {slot : Fin n} {i g : ℕ}
    (live : s.registry.live slot = some g) (readable : (s.mirrors i).canRead = true) :
    SlotInv layout { s with reads := update s.reads slot (i :: s.reads slot) } phases := by
  refine { inv with reads_live := fun other read => ?_, reads_protected := fun other j mem => ?_ }
  · by_cases same : other = slot
    · subst same
      exact ⟨g, live⟩
    · exact inv.reads_live other (by simpa [same] using read)
  · by_cases same : other = slot
    · subst same
      obtain rfl | mem : j = i ∨ j ∈ s.reads other := by simpa using mem
      · exact .inl readable
      · exact inv.reads_protected other j mem
    · exact inv.reads_protected other j (by simpa [same] using mem)

variable [DecidableEq τ] {task : τ}

/-- The task that has set tag and mirror to RETIRING hands the slot over to a queue. -/
theorem SlotInv.push {id : UInt32} (q : Fin 4)
    (retired : phases task = .retired id.toNat) :
    SlotInv layout { s with registry := s.registry.push q id }
      (update phases task .none) := by
  obtain ⟨small, tagged, mirrored⟩ := inv.consistent.each_of_eq retired _ _ _ rfl
  have apart : ∀ other, other ≠ task → (phases other).index? ≠ some id.toNat :=
    fun other ne has =>
      inv.consistent.pair other task ne _ has (by rw [retired]; rfl)
  have idle : ∀ {i : Nat}, (Phase.none).index? ≠ some i := by simp [Phase.index?, Phase.view]
  have unqueued : ∀ q, ∀ entry ∈ s.registry.retiring q, entry.id.toNat ≠ id.toNat :=
    fun q entry mem same => (inv.queued q entry mem).2.2.2 task (by rw [retired, same]; rfl)
  have member_cases : ∀ q', ∀ entry ∈ (s.registry.push q id).retiring q',
      entry ∈ s.registry.retiring q' ∨ entry.id = id := by
    intro q' entry mem
    by_cases here : q' = q
    · subst here
      exact (by simpa [Registry.push] using mem :
        _ ∨ entry = _).imp_right fun same => by rw [same]
    · exact .inl (by simpa [Registry.push, here] using mem)
  have member_old : ∀ q', ∀ entry ∈ s.registry.retiring q',
      entry ∈ (s.registry.push q id).retiring q' := by
    intro q' entry mem
    by_cases here : q' = q
    · subst here
      simp [Registry.push, mem]
    · simpa [Registry.push, here] using mem
  refine { inv with
    consistent := inv.consistent.update rfl (by simp [Phase.Fits, Phase.view])
      fun other fits _ _ => ⟨fits, by simp [Phase.Apart, Phase.index?, Phase.view]⟩
    queued := fun q' entry mem => ?queued
    queued_once := fun i => ?once
    reads_protected := fun slot i mem => ?reads
    held := fun other => ?held }
  case queued =>
    obtain mem | same := member_cases q' entry mem
    · obtain ⟨below, tagged, mirrored, free⟩ := inv.queued q' entry mem
      exact ⟨below, tagged, mirrored, (forall_update_iff phases
        fun _ phase => phase.index? ≠ some _).mpr ⟨idle, fun other _ => free other⟩⟩
    · rw [same]
      exact ⟨small, tagged, mirrored, (forall_update_iff phases
        fun _ phase => phase.index? ≠ some _).mpr ⟨idle, apart⟩⟩
  case once =>
    have before := inv.queued_once i
    have moved := sum_count_update s.registry.retiring (·.id.toNat) q
      (s.registry.retiring q ++ [⟨id, s.registry.pushes, s.registry.epoch, s.registry.live⟩]) i
    simp only [map_append, count_append, map_cons, map_nil,
      count_singleton, beq_iff_eq] at moved
    simp only [Registry.push]
    by_cases same : id.toNat = i
    · -- the id was in no queue while a task had its slot
      have absent : ∑ q, ((s.registry.retiring q).map (·.id.toNat)).count i = 0 := by
        refine Finset.sum_eq_zero fun q' _ => count_eq_zero.mpr ?_
        intro mem
        obtain ⟨entry, mem, key⟩ := mem_map.mp mem
        exact unqueued q' entry mem (key.trans same.symm)
      rw [if_pos same] at moved
      omega
    · rw [if_neg same] at moved
      omega
  case reads =>
    obtain readable | ⟨other, old⟩ | ⟨q', entry, queued, same, waiting⟩ :=
      inv.reads_protected slot i mem
    · exact .inl readable
    · by_cases mine : other = task
      · -- the reader's guard is among those the entry waits for
        obtain rfl : id.toNat = i := by simpa [mine, retired] using old
        obtain ⟨g, live⟩ := inv.reads_live slot (ne_nil_of_mem mem)
        exact .inr (.inr ⟨q, ⟨id, s.registry.pushes, s.registry.epoch, s.registry.live⟩,
          by simp [Registry.push], rfl, g, live, live⟩)
      · exact .inr (.inl ⟨other, by simpa [mine] using old⟩)
    · exact .inr (.inr ⟨q', entry, member_old q' entry queued, same, waiting⟩)
  case held =>
    by_cases mine : other = task
    · subst mine
      simpa [retired, Phase.held] using inv.held other
    · simpa [mine] using inv.held other

/-- A popped id comes with its slot, which no reader can be looking at any more. -/
theorem SlotInv.pop {q : Fin 4} {entry : Retired n}
    {rest : List (Retired n)} (idle : phases task = .none)
    (head : s.registry.retiring q = entry :: rest)
    (dropped : ∀ slot g, entry.waiting slot = some g → s.registry.live slot ≠ some g) :
    SlotInv layout { s with registry := (s.registry.pop q).1 }
      (update phases task (.popped entry.id.toNat)) := by
  obtain ⟨small, tagged, mirrored, free⟩ := inv.queued q entry (by simp [head])
  have popped : (s.registry.pop q).1.retiring = update s.registry.retiring q rest := by
    simp [Registry.pop, head]
  have live : (s.registry.pop q).1.live = s.registry.live := by simp [Registry.pop, head]
  have subset : ∀ q', ∀ other ∈ update s.registry.retiring q rest q',
      other ∈ s.registry.retiring q' := by
    intro q' other mem
    by_cases here : q' = q
    · subst here
      rw [head]
      exact mem_cons_of_mem _ (by simpa using mem)
    · simpa [here] using mem
  have moved := sum_count_update s.registry.retiring (·.id.toNat) q rest
  simp only [head, map_cons, count_cons, beq_iff_eq] at moved
  have counted : ∀ q', ∀ other ∈ update s.registry.retiring q rest q',
      0 < ∑ q', ((update s.registry.retiring q rest q').map (·.id.toNat)).count
        other.id.toNat := by
    intro q' other mem
    refine Finset.sum_pos' (fun _ _ => Nat.zero_le _) ⟨q', Finset.mem_univ _, ?_⟩
    exact count_pos_iff.mpr (mem_map_of_mem mem)
  have gone : ∀ q', ∀ other ∈ update s.registry.retiring q rest q',
      other.id.toNat ≠ entry.id.toNat := by
    intro q' other mem same
    have once := inv.queued_once entry.id.toNat
    have total := moved entry.id.toNat
    have pos := counted q' other mem
    rw [same] at pos
    rw [if_pos rfl] at total
    omega
  have index : (Phase.popped entry.id.toNat).index? = some entry.id.toNat := rfl
  refine { inv with
    consistent := inv.consistent.replace ?own fun other _ =>
      ⟨inv.consistent.each other, fun i has => ?apart, fun i has has' => ?apart'⟩
    queued := fun q' other mem => ?queued
    queued_once := fun i => ?once
    reads_live := by simpa only [live] using inv.reads_live
    reads_protected := fun slot i mem => ?reads
    held := fun other => ?held }
  case own =>
    intro i tag mirror view
    obtain ⟨rfl, rfl, rfl⟩ : entry.id.toNat = i ∧ Tag.retiring = tag ∧ Tag.retiring = mirror := by
      simpa [Phase.view] using view
    exact ⟨small, tagged, mirrored⟩
  case apart =>
    obtain rfl : entry.id.toNat = i := by simpa [index] using has
    exact free other
  case apart' =>
    obtain rfl : entry.id.toNat = i := by simpa [index] using has'
    exact free other has
  case queued =>
    rw [popped] at mem
    obtain ⟨below, tagged, mirrored, free⟩ := inv.queued q' other (subset q' other mem)
    exact ⟨below, tagged, mirrored, (forall_update_iff phases fun _ phase => phase.index? ≠ some _).mpr
      ⟨by simpa [index] using (gone q' other mem).symm, fun task' _ => free task'⟩⟩
  case once =>
    have before := inv.queued_once i
    have total := moved i
    rw [popped]
    omega
  case reads =>
    rw [Protects, popped, live]
    obtain readable | ⟨other, retired⟩ | ⟨q', other, queued, same, g, now, waiting⟩ :=
      inv.reads_protected slot i mem
    · exact .inl readable
    · refine .inr (.inl ⟨other, ?_⟩)
      have ne : other ≠ task := by
        rintro rfl
        simp [idle] at retired
      simpa [ne] using retired
    · refine .inr (.inr ⟨q', other, ?_, same, g, now, waiting⟩)
      by_cases here : q' = q
      · subst here
        obtain rfl | kept : other = entry ∨ other ∈ rest := by simpa [head] using queued
        · exact absurd now (dropped slot g waiting)
        · simpa using kept
      · simpa [here] using queued
  case held =>
    by_cases mine : other = task
    · subst mine
      simpa [idle, Phase.held] using inv.held other
    · simpa [mine] using inv.held other

end Registry

/-! ## Every access keeps the invariant -/

section Sound

variable {n : ℕ} {τ : Type} {layout : Layout} {s : State n τ} {tokens : τ → Token n}
  {o : Epoch.Op n} {token' : Token n} {r : o.Res} {s' : State n τ}

theorem protocol_pre_setup {token : Token n} (setup : o.isSetup = true) :
    (protocol n layout).pre token (.epoch o) ↔ (Epoch.protocol n).pre token.epoch o := by
  cases o <;> first | rfl | cases setup

theorem protocol_post_setup {token : Token n} (setup : o.isSetup = true) :
    (protocol n layout).post token (.epoch o) r token' ↔
      (Epoch.protocol n).post token.epoch o r token'.epoch ∧ token'.phase = token.phase := by
  cases o <;> first | rfl | cases setup

variable [DecidableEq τ] {task : τ} (inv : Inv layout s tokens)
include inv

/-- An access of what the invariant does not speak about. -/
theorem Inv.frame (registry : s'.registry = s.registry)
    (tags : s'.tags = s.tags) (mirrors : s'.mirrors = s.mirrors) (held : s'.held = s.held)
    (reads : s'.reads = s.reads) : Inv layout s' (update tokens task (tokens task)) := by
  rw [update_eq_self]
  obtain ⟨epoch, slots⟩ := inv
  cases s
  subst registry tags mirrors held reads
  exact ⟨epoch, { slots with }⟩

omit inv in
theorem Inv.update (epoch : Epoch.Inv s'.registry
      (update (fun task => (tokens task).epoch) task token'.epoch))
    (slots : SlotInv layout s' (update (fun task => (tokens task).phase) task token'.phase)) :
    Inv layout s' (update tokens task token') := by
  constructor
  · rwa [update_part Token.epoch]
  · rwa [update_part Token.phase]

/-- Only the phase moves. -/
theorem Inv.updatePhase (registry : s'.registry = s.registry)
    (same : token'.epoch = (tokens task).epoch)
    (slots : SlotInv layout s' (Function.update (fun task => (tokens task).phase) task token'.phase)) :
    Inv layout s' (Function.update tokens task token') := by
  refine Inv.update ?_ slots
  rw [same, registry, update_eq_self task fun task => (tokens task).epoch]
  exact inv.epoch

theorem Inv.setup (setup : o.isSetup = true)
    (pre : (Epoch.protocol n).pre (tokens task).epoch o) {registry : Epoch.Registry n}
    (out : Epoch.exec task o s.registry = some (registry, r)) :
    ∃ epoch', (Epoch.protocol n).post (tokens task).epoch o r epoch' ∧
      Inv layout { s with registry } (Function.update tokens task ⟨epoch', (tokens task).phase⟩) := by
  obtain ⟨epoch', post, kept⟩ := protocol_sound.step inv.epoch pre out
  obtain ⟨retiring, live⟩ := inv.epoch.setup_keeps pre setup out
  refine ⟨epoch', post, Inv.update kept ?_⟩
  rw [update_eq_self task fun task => (tokens task).phase]
  exact inv.slots.setup retiring live

omit inv in
theorem exec_setup (setup : o.isSetup = true)
    (out : exec layout task (.epoch o) s = some (s', r)) :
    ∃ registry, Epoch.exec task o s.registry = some (registry, r) ∧ s' = { s with registry } := by
  obtain ⟨⟨registry, r'⟩, ran, same⟩ := Option.map_eq_some_iff.mp out
  obtain ⟨rfl, rfl⟩ := Prod.mk.inj same
  refine ⟨registry, ran, ?_⟩
  cases o <;> first | rfl | cases setup

/-- Drops, pushes and pops are the accesses of the registry that move slots. -/
theorem Inv.epochStep (pre : (protocol n layout).pre (tokens task) (.epoch o))
    (out : exec layout task (.epoch o) s = some (s', r)) :
    ∃ token', (protocol n layout).post (tokens task) (.epoch o) r token' ∧
      Inv layout s' (Function.update tokens task token') := by
  by_cases setup : o.isSetup = true
  · obtain ⟨registry, ran, rfl⟩ := exec_setup setup out
    obtain ⟨epoch', post, kept⟩ := inv.setup setup ((protocol_pre_setup setup).mp pre) ran
    exact ⟨⟨epoch', (tokens task).phase⟩, (protocol_post_setup setup).mpr ⟨post, rfl⟩, kept⟩
  cases o with
  | dropGuard slot =>
    cases out
    obtain ⟨epoch', post, kept⟩ :=
      protocol_sound.step (o := .dropGuard slot) inv.epoch pre rfl
    refine ⟨⟨epoch', (tokens task).phase⟩, ⟨post, rfl⟩, Inv.update kept ?_⟩
    rw [update_eq_self task fun task => (tokens task).phase]
    exact inv.slots.dropGuard slot
  | push q id =>
    cases out
    obtain ⟨epoch', post, kept⟩ := protocol_sound.step inv.epoch pre.1 rfl
    exact ⟨⟨epoch', .none⟩, ⟨post, rfl⟩, Inv.update kept (inv.slots.push q pre.2)⟩
  | pop q =>
    have ran : Epoch.exec task (.pop q) s.registry =
        some ((s.registry.pop q).1, (s.registry.pop q).2) := rfl
    obtain ⟨epoch', post, kept⟩ := protocol_sound.step inv.epoch pre.1 ran
    obtain ⟨⟨current, draining, rfl⟩, idle⟩ := pre
    have answered : ({ s with registry := (s.registry.pop (lastQueue current)).1 },
        (s.registry.pop (lastQueue current)).2) = (s', r) := Option.some.inj out
    cases entries : s.registry.retiring (lastQueue current) with
    | nil =>
      rw [Registry.pop_nil entries] at answered kept
      cases answered
      refine ⟨⟨epoch', .none⟩, ⟨post, rfl⟩, Inv.update kept ?_⟩
      rw [← idle, update_eq_self task fun task => (tokens task).phase]
      exact inv.slots
    | cons entry rest =>
      have moved := inv.slots.pop idle entries fun slot g waiting =>
        inv.epoch.popped_after_dropped draining (by simp [entries]) waiting
      have small := (inv.slots.queued _ entry (by rw [entries]; simp)).1
      rw [Registry.pop_cons entries] at answered kept moved
      cases answered
      exact ⟨⟨epoch', .popped entry.id.toNat⟩, ⟨post, rfl, small⟩, Inv.update kept moved⟩
  | _ => exact absurd rfl setup

omit inv

/-- What an access does to the tag of a slot. -/
theorem exec_tags {o : Op n} {r : o.Res} (out : exec layout task o s = some (s', r)) (i : ℕ) :
    s'.tags i = s.tags i ∨
      (∃ new, o = .casTag i (s.tags i) new ∧ s'.tags i = new) ∨
      ∃ tag, o = .storeTag i tag ∧ s'.tags i = tag := by
  cases o with
  | epoch o =>
    obtain ⟨⟨registry, r'⟩, -, same⟩ := Option.map_eq_some_iff.mp out
    obtain ⟨rfl, -⟩ := Prod.mk.inj same
    cases o <;> exact .inl rfl
  | casTag j old new =>
    simp only [exec] at out
    split_ifs at out with now
    · cases out
      by_cases same : i = j
      · subst same now
        exact .inr (.inl ⟨new, rfl, by simp [setOwned]⟩)
      · exact .inl (by simp [setOwned, same])
    · cases out
      exact .inl rfl
  | storeTag j tag =>
    cases out
    by_cases same : i = j
    · subst same
      exact .inr (.inr ⟨tag, rfl, by simp [setTag]⟩)
    · exact .inl (by simp [setTag, same])
  | read slot j =>
    cases out
    split_ifs <;> exact .inl rfl
  | pushRecycled id =>
    simp only [exec] at out
    split_ifs at out <;> cases out <;> exact .inl rfl
  | casNext next =>
    simp only [exec] at out
    split_ifs at out <;> cases out <;> exact .inl rfl
  | _ =>
    cases out
    exact .inl rfl

/-- The protocol keeps the invariant at every atomic access. -/
theorem protocol_sound (layout : Layout) :
    (protocol n layout).Sound (exec (τ := τ) layout) (Inv layout) where
  step := by
    intro tokens s s' task o r inv pre out
    cases o with
    | epoch o => exact inv.epochStep pre out
    | loadTag i =>
      cases out
      refine ⟨_, ⟨rfl, fun below unfrozen => ?_, fun released => ?_⟩, by simpa using inv⟩
      · by_contra above
        exact unfrozen (inv.slots.frozen i (by omega) below).1
      · exact (inv.slots.consistent.each_of_eq released _ _ _ rfl).2.1
    | casTag i old new =>
      obtain ⟨small, idle, phase', claim⟩ := pre
      simp only [exec] at out
      split_ifs at out with now
      · cases out
        exact ⟨⟨(tokens task).epoch, phase'⟩, ⟨rfl, claim⟩,
          inv.updatePhase rfl rfl (inv.slots.claim small idle claim now)⟩
      · cases out
        exact ⟨_, ⟨rfl, rfl⟩, inv.frame rfl rfl rfl rfl rfl⟩
    | storeTag i tag =>
      cases out
      exact ⟨_, rfl, inv.updatePhase rfl rfl (inv.slots.moveTag pre)⟩
    | loadMirror i =>
      cases out
      refine ⟨_, ⟨rfl, fun popped => ?_⟩, by simpa using inv⟩
      exact (inv.slots.consistent.each_of_eq popped _ _ _ rfl).2.2
    | storeMirror i tag =>
      obtain ⟨phase', move⟩ := pre
      cases out
      exact ⟨⟨(tokens task).epoch, phase'⟩, ⟨rfl, move⟩,
        inv.updatePhase rfl rfl (inv.slots.moveMirror move)⟩
    | read slot i =>
      obtain ⟨⟨stored, epoch, guarding⟩, -⟩ := pre
      obtain ⟨-, -, -, -, -, g, live, -⟩ := inv.epoch.consistent.each_of_eq guarding
      cases out
      refine ⟨_, rfl, ?_⟩
      rw [update_eq_self]
      split_ifs with readable
      · exact ⟨inv.epoch, inv.slots.read live readable⟩
      · exact inv
    | pushRecycled id =>
      simp only [exec] at out
      split_ifs at out <;> cases out <;> exact ⟨_, rfl, inv.frame rfl rfl rfl rfl rfl⟩
    | casNext next =>
      simp only [exec] at out
      split_ifs at out <;> cases out <;> exact ⟨_, rfl, inv.frame rfl rfl rfl rfl rfl⟩
    | _ =>
      cases out
      exact ⟨_, rfl, inv.frame rfl rfl rfl rfl rfl⟩

end Sound

end DiskAnn.Inmem.Store
