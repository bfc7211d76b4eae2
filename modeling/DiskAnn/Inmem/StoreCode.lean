import DiskAnn.Inmem.StoreProtocol

/-! # The code of the slot store follows its protocol

Weakest preconditions of the functions of `store.rs` and `freelist.rs`. `acquire`, `try_drain` and
the drop of a `Slot` neither publish nor retire a slot, and `retire` retires no other slot than its
own; saying so lets these results be used where a caller's protocol asks more for such accesses.
-/

namespace DiskAnn.Inmem.Store

open Machine Protocol

variable {n : ℕ} {layout : Layout} {token : Token n}

/-- The accesses of `acquire`, of `try_drain` and of the drop of a `Slot`. -/
def Neutral (_ : Token n) : Op n → Prop
  | .casTag _ _ new => new = .owned
  | .storeTag _ tag => tag = .available
  | .epoch (.push _ _) => False
  | _ => True

/-- Whether a CAS of a tag has succeeded. -/
def seesClaim (seen : Bool) : (o : Op n) → o.Res → Bool
  | .casTag _ _ _, claimed => seen || claimed
  | _, _ => seen

/-- The accesses of `retire` for slot `i`, before and after it has claimed the slot. -/
def Retires (i : ℕ) (token : Token n × Bool) : Op n → Prop
  | .casTag j _ new => j = i ∧ new = .retiring ∧ token.2 = false
  | .storeMirror j _ => j = i ∧ token.2 = true
  | .storeTag _ _ => False
  | .epoch (.pop _) => False
  | _ => True

/-- The protocol of `acquire`, of `try_drain` and of the drop of a `Slot`. -/
def neutral (n : ℕ) (layout : Layout) : Protocol (interface n) Panic (Token n) :=
  (protocol n layout).restrict Neutral fun _ => True

/-- The protocol of `retire` for slot `i`, which never panics. -/
def retires (n : ℕ) (layout : Layout) (i : ℕ) :
    Protocol (interface n) Panic (Token n × Bool) :=
  ((protocol n layout).track seesClaim).restrict (Retires i) fun _ => False

/-- A task that holds no guard, no drain and no slot. -/
def Token.Free (token : Token n) : Prop := token.epoch.free = true ∧ token.phase = .none

theorem free_of_dropped (dropped : token.epoch = .idle) (idle : token.phase = .none) :
    token.Free := ⟨by rw [dropped]; rfl, idle⟩

/-- The token after an attempt to acquire a slot. -/
def Acquired (token : Token n) (r : Option Slot) (token' : Token n) : Prop :=
  token' = match r with
    | none => token
    | some acquired => ⟨token.epoch, .owned acquired.slot⟩

/-- Setting a guard or a drain up leaves the phase alone. -/
theorem registry_wp_track {U : Type} {see : U → (o : Op n) → o.Res → U} {seen : U}
    {allowed : Token n × U → Op n → Prop} {panics : Panic → Prop} {α : Type}
    {code : Epoch.Code n α} {Q : Epoch.Token n → α → Prop}
    (setup : ∀ token o, o.isSetup = true → allowed token (.epoch o))
    (unseen : ∀ o r, see seen (.epoch o) r = seen) (idle : token.phase = .none)
    (run : (Epoch.setup n fun reason => panics (.epoch reason)).wp token.epoch code Q) :
    (((protocol n layout).track see).restrict allowed panics).wp (token, seen) (registry code)
      fun token' r => token'.1.phase = .none ∧ token'.2 = seen ∧ Q token'.1.epoch r := by
  refine wp_mono (wp_lift (fun epoch wide => wide = (⟨epoch, .none⟩, seen)) ?_ ?_ ?_ run) ?_
  · rintro epoch wide o rfl ⟨pre, isSetup⟩
    refine ⟨⟨(protocol_pre_setup isSetup).mpr pre, setup _ _ isSetup⟩, ?_⟩
    rintro r ⟨⟨epoch', phase⟩, seen'⟩ ⟨post, sees⟩
    obtain ⟨post, same⟩ := (protocol_post_setup isSetup).mp post
    obtain rfl : seen' = seen := sees.trans (unseen _ _)
    obtain rfl : phase = .none := same
    exact ⟨epoch', post, rfl⟩
  · rintro epoch wide reason rfl ⟨rfl, may⟩
    exact ⟨⟨rfl, rfl⟩, may⟩
  · rw [← idle]
  · rintro token' r ⟨epoch, rfl, post⟩
    exact ⟨rfl, rfl, post⟩

theorem registry_wp {allowed : Token n → Op n → Prop} {panics : Panic → Prop} {α : Type}
    {code : Epoch.Code n α} {Q : Epoch.Token n → α → Prop}
    (setup : ∀ token o, o.isSetup = true → allowed token (.epoch o)) (idle : token.phase = .none)
    (run : (Epoch.setup n fun reason => panics (.epoch reason)).wp token.epoch code Q) :
    ((protocol n layout).restrict allowed panics).wp token (registry code) fun token' r =>
      token'.phase = .none ∧ Q token'.epoch r := by
  let untracked := ((protocol n layout).track fun (_ : Unit) _ _ => ()).restrict
    (fun tracked => allowed tracked.1) panics
  have tracked : untracked.wp (token, ()) (registry code) _ :=
    registry_wp_track (fun tracked => setup tracked.1) (fun _ _ => rfl) idle run
  refine wp_mono (wp_coarsen (L := untracked) (M := (protocol n layout).restrict allowed panics)
    Prod.fst (fun _ _ pre => pre) (fun _ _ _ token' moved => ⟨(token', ()), ⟨moved, rfl⟩, rfl⟩)
    (fun _ _ may => may) tracked) ?_
  rintro token' r ⟨tracked, rfl, idle, -, post⟩
  exact ⟨idle, post⟩

theorem freelistPop_wp :
    (neutral n layout).wp token (freelistPop layout) fun token' _ => token' = token := by
  refine wp_op ⟨trivial, trivial⟩ ?_
  rintro (recycled : Option ℕ) token' rfl
  cases recycled with
  | some id => exact wp_ret rfl
  | none =>
    refine wp_op ⟨trivial, trivial⟩ ?_
    rintro (next : ℕ) token' rfl
    refine wp_repeatUntil (fun token _ => token = token') ?_ rfl
    rintro token next rfl
    split_ifs
    · refine wp_op ⟨trivial, trivial⟩ ?_
      rintro (minted : Except ℕ ℕ) token' rfl
      cases minted <;> exact wp_ret rfl
    · exact wp_ret rfl

theorem freelistPush_wp (i : ℕ) :
    (neutral n layout).wp token (freelistPush layout i) fun token' _ => token' = token := by
  by_cases small : i < layout.unfrozen
  · rw [freelistPush, if_pos small]
    refine wp_op_iff.mpr ⟨⟨trivial, trivial⟩, ?_⟩
    exact fun _ _ same => same
  · rw [freelistPush, if_neg small]
    exact wp_ret rfl

theorem freelistScan_wp :
    (neutral n layout).wp token (freelistScan layout) fun token' chunk =>
      token' = token ∧ ∀ i ∈ chunk, i < layout.unfrozen := by
  unfold freelistScan
  split_ifs
  · exact wp_ret ⟨rfl, by simp⟩
  · refine wp_op ⟨trivial, trivial⟩ ?_
    rintro (count : ℕ) token' rfl
    refine wp_ret ⟨rfl, fun i mem => ?_⟩
    obtain ⟨k, below, rfl⟩ := List.mem_range'.mp mem
    omega

theorem tryAcquire_wp {i : ℕ} (below : i < layout.total) (idle : token.phase = .none) :
    (neutral n layout).wp token (tryAcquire i) fun token' r => Acquired token r token' := by
  refine wp_op ⟨trivial, trivial⟩ ?_
  rintro (tag : Tag) token' ⟨rfl, unfrozen, -⟩
  split_ifs with unavailable
  · exact wp_ret rfl
  · obtain rfl : tag = .available := by simpa using unavailable
    refine wp_op ⟨⟨unfrozen below (by decide), idle, _, .acquire⟩, rfl⟩ ?_
    rintro (claimed : Bool) ⟨epoch, phase⟩ ⟨rfl, moved⟩
    cases claimed with
    | false =>
      obtain rfl : phase = token'.phase := by simpa using moved
      exact wp_ret rfl
    | true =>
      cases moved
      exact wp_ret rfl

theorem slot_wp {i : ℕ} (idle : token.phase = .none) :
    (neutral n layout).wp token (slot layout i) fun token' r => Acquired token r token' := by
  unfold slot
  split_ifs with below
  · exact tryAcquire_wp below idle
  · exact wp_ret rfl

theorem scanChunk_wp {before : Token n} {acquired : Option Slot} {chunk : List ℕ}
    (bounded : ∀ i ∈ chunk, i < layout.unfrozen) (idle : before.phase = .none)
    (so_far : Acquired before acquired token) :
    (neutral n layout).wp token (scanChunk layout acquired chunk) fun token' r =>
      Acquired before r token' := by
  induction chunk generalizing token acquired with
  | nil => exact wp_ret so_far
  | cons i rest ih =>
    have below : i < layout.total := (bounded i (by simp)).trans layout.unfrozen_lt
    have rest_bounded : ∀ j ∈ rest, j < layout.unfrozen := fun j mem =>
      bounded j (List.mem_cons_of_mem _ mem)
    unfold scanChunk
    rw [if_pos below]
    refine wp_op ⟨trivial, trivial⟩ ?_
    rintro (tag : Tag) token' ⟨rfl, -⟩
    split_ifs
    · cases acquired with
      | none =>
        obtain rfl : token' = before := so_far
        exact wp_seq (tryAcquire_wp below idle) fun _ _ => ih rest_bounded
      | some held =>
        refine wp_seq (freelistPush_wp i) ?_
        rintro token _ rfl
        exact ih rest_bounded so_far
    · exact ih rest_bounded so_far

theorem scanAcquire_wp (idle : token.phase = .none) :
    (neutral n layout).wp token (scanAcquire layout) fun token' r => Acquired token r token' := by
  refine wp_repeatUntil (fun token' _ => token' = token) ?_ rfl
  rintro token' ⟨remaining, chunks⟩ rfl
  dsimp only
  by_cases finished : remaining = 0
  · rw [if_neg (by simpa using finished)]
    exact wp_ret rfl
  rw [if_pos finished]
  refine wp_seq freelistScan_wp ?_
  rintro token chunk ⟨rfl, bounded⟩
  refine wp_seq (scanChunk_wp bounded idle rfl) ?_
  rintro token' (_ | acquired) rfl
  · by_cases checks : chunks + 1 = 4
    · simp only [checks]
      refine wp_op ⟨trivial, trivial⟩ ?_
      rintro (_ | id) token' rfl
      · exact wp_ret rfl
      · refine wp_seq (slot_wp idle) ?_
        rintro token' (_ | acquired) rfl <;> exact wp_ret rfl
    · simp only [checks]
      exact wp_ret rfl
  · exact wp_ret rfl

/-- The assertions of `try_drain` hold for every id a drain offers. -/
theorem reclaim_wp {d : Epoch.Drain} {epoch : Epoch.Token n} (of : d.Of epoch) :
    (neutral n layout).wp ⟨epoch, .none⟩ (reclaim layout d) fun token' _ =>
      token' = ⟨epoch, .none⟩ := by
  refine wp_repeatUntil (fun token' _ => token' = ⟨epoch, .none⟩) ?_ rfl
  rintro _ _ rfl
  refine wp_op ⟨⟨of, rfl⟩, trivial⟩ ?_
  rintro (_ | id) ⟨epoch', phase⟩ ⟨rfl, moved⟩
  · obtain rfl : phase = .none := moved
    exact wp_ret rfl
  obtain ⟨rfl, small⟩ : phase = .popped id.toNat ∧ id.toNat < layout.unfrozen := moved
  dsimp only
  rw [if_pos (small.trans layout.unfrozen_lt)]
  refine wp_op ⟨trivial, trivial⟩ ?_
  rintro (mirror : Tag) token' ⟨rfl, mirrored⟩
  rw [if_pos (mirrored rfl)]
  refine wp_op ⟨⟨_, .reclaim⟩, trivial⟩ ?_
  rintro _ ⟨epoch', phase⟩ ⟨rfl, move⟩
  cases move
  refine wp_op ⟨trivial, trivial⟩ ?_
  rintro (tag : Tag) token' ⟨rfl, -, tagged⟩
  rw [if_pos (tagged rfl)]
  refine wp_op ⟨.reclaim, rfl⟩ ?_
  rintro _ token' rfl
  refine wp_seq (freelistPush_wp _) ?_
  rintro token' _ rfl
  exact wp_ret rfl

theorem tryDrain_wp (free : token.Free) :
    (neutral n layout).wp token (tryDrain layout) fun token' _ => token'.Free := by
  refine wp_seq (registry_wp ?_ free.2 (Epoch.tryAdvance_wp free.1)) ?_
  · intro token o setup
    cases o <;> trivial
  rintro ⟨epoch, phase⟩ (_ | d) ⟨idle, of⟩
  · exact wp_ret ⟨of, idle⟩
  obtain rfl : phase = .none := idle
  refine wp_op ⟨of, trivial⟩ ?_
  rintro (items : ℕ) ⟨epoch', phase⟩ ⟨same, kept⟩
  obtain rfl : epoch' = epoch := same
  obtain rfl : phase = .none := kept
  refine wp_seq (reclaim_wp of) ?_
  rintro token' _ rfl
  obtain ⟨current, rfl, -⟩ := of
  refine wp_op ⟨rfl, trivial⟩ ?_
  exact fun _ token' dropped => wp_ret (free_of_dropped dropped.1 dropped.2)

/-- `acquire` ends with a slot of its own, or with nothing. -/
theorem acquireWithin_wp (attempts : ℕ) (free : token.Free) :
    (neutral n layout).wp token (acquireWithin layout attempts) fun token' r =>
      token'.epoch.free = true ∧
        token'.phase = match r with
          | none => .none
          | some acquired => .owned acquired.slot := by
  induction attempts generalizing token with
  | zero => exact wp_ret free
  | succ attempts ih =>
    refine wp_seq freelistPop_wp ?_
    rintro token' (_ | id) rfl
    · refine wp_seq (scanAcquire_wp free.2) ?_
      rintro token (_ | acquired) rfl
      · exact wp_seq (tryDrain_wp free) fun _ _ free => ih free
      · exact wp_ret ⟨free.1, rfl⟩
    · refine wp_seq (slot_wp free.2) ?_
      rintro token (_ | acquired) rfl
      · exact ih free
      · exact wp_ret ⟨free.1, rfl⟩

/-- `retire` ends with nothing in hand, and with success exactly when it has claimed the slot. -/
theorem retire_wp [NeZero n] {i : ℕ} (free : token.Free) :
    (retires n layout i).wp (token, false) (retire layout i) fun token' r =>
      token'.1.Free ∧ (token'.2 = true ↔ r = .ok ()) := by
  unfold retire
  by_cases below : i < layout.total
  · rw [if_pos below]
    refine wp_op ⟨trivial, trivial⟩ ?_
    rintro (current : Tag) ⟨token', seen⟩ ⟨⟨same, unfrozen, -⟩, sees⟩
    obtain rfl : token' = token := same
    obtain rfl : seen = false := sees
    cases reserved : current.isReserved with
    | true => exact wp_ret ⟨free, by simp⟩
    | false =>
      obtain rfl := Tag.eq_published_of_not_reserved reserved
      have small := unfrozen below (by decide)
      refine wp_seq (registry_wp_track ?_ (fun _ _ => rfl) free.2
        (Epoch.guard_wp _ free.1)) ?_
      · intro token o setup
        cases o <;> trivial
      rintro ⟨⟨epoch, phase⟩, seen⟩ (_ | guard) ⟨idle, rfl, of⟩
      · exact wp_ret ⟨⟨of, idle⟩, by simp⟩
      obtain rfl : phase = .none := idle
      obtain ⟨stored, confirmed, rfl, home⟩ := of
      refine wp_op ⟨⟨small, rfl, _, .retire⟩, rfl, rfl, rfl⟩ ?_
      rintro (claimed : Bool) ⟨⟨epoch, phase⟩, seen⟩ ⟨⟨rfl, moved⟩, sees⟩
      obtain rfl : claimed = seen := sees.symm
      cases claimed with
      | false =>
        obtain rfl : phase = .none := by simpa using moved
        refine wp_op ⟨⟨stored, confirmed, rfl⟩, trivial⟩ ?_
        rintro _ ⟨token', seen⟩ ⟨dropped, rfl⟩
        exact wp_ret ⟨free_of_dropped dropped.1 dropped.2, by simp [seesClaim]⟩
      | true =>
        cases moved
        refine wp_op ⟨⟨_, .retire⟩, rfl, rfl⟩ ?_
        rintro _ ⟨⟨epoch, phase⟩, seen⟩ ⟨⟨rfl, move⟩, rfl⟩
        cases move
        have index : (UInt32.ofNat i).toNat = i :=
          UInt32.toNat_ofNat_of_lt' (small.trans (layout.unfrozen_lt.trans layout.total_lt))
        refine wp_op ⟨⟨⟨guard.slot, stored, confirmed, rfl, home⟩, by rw [index]⟩, trivial⟩ ?_
        rintro _ ⟨⟨epoch, phase⟩, seen⟩ ⟨⟨rfl, rfl⟩, rfl⟩
        refine wp_op ⟨⟨stored, confirmed, rfl⟩, trivial⟩ ?_
        rintro _ ⟨token', seen⟩ ⟨dropped, rfl⟩
        exact wp_ret ⟨free_of_dropped dropped.1 dropped.2, by simp [seesClaim]⟩
  · rw [if_neg below]
    exact wp_ret ⟨free, by simp⟩

theorem publish_wp {epoch : Epoch.Token n} (acquired : Slot) :
    (protocol n layout).wp ⟨epoch, .owned acquired.slot⟩ acquired.publish fun token' _ =>
      token' = ⟨epoch, .none⟩ := by
  refine wp_op ⟨_, .publish⟩ ?_
  rintro _ ⟨epoch, phase⟩ ⟨rfl, move⟩
  cases move
  refine wp_op .publish ?_
  rintro _ token' rfl
  exact wp_ret rfl

theorem drop_wp {epoch : Epoch.Token n} (acquired : Slot) :
    (neutral n layout).wp ⟨epoch, .owned acquired.slot⟩ acquired.drop fun token' _ =>
      token' = ⟨epoch, .none⟩ := by
  refine wp_op ⟨⟨_, .abandon⟩, trivial⟩ ?_
  rintro _ ⟨epoch, phase⟩ ⟨rfl, move⟩
  cases move
  refine wp_op ⟨.abandon, rfl⟩ ?_
  rintro _ token' rfl
  exact wp_ret rfl

theorem writeAll_wp (acquired : Slot) (bytes : List (ℕ × UInt8))
    (owns : token.phase = .owned acquired.slot) :
    (neutral n layout).wp token (acquired.writeAll bytes) fun token' _ => token' = token := by
  induction bytes with
  | nil => exact wp_ret rfl
  | cons write rest ih =>
    refine wp_op ⟨owns, trivial⟩ ?_
    rintro _ token' rfl
    exact ih

end DiskAnn.Inmem.Store
