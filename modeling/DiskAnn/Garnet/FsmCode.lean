import DiskAnn.Garnet.FsmProtocol

/-! # The code of the free space map follows its protocol -/

namespace DiskAnn.Garnet.Fsm

open Machine Protocol

/-- Outside of `mark_id_unchecked` and of a mint, with or without the barrier and an id to return. -/
structure Token.Calm (barrier : Option Unit) (owes : Option ℕ) (token : Token) : Prop where
  barrier_eq : token.barrier = barrier
  owes_eq : token.owes = owes
  refill : token.refill = none
  settle : token.settle = none
  announce : token.announce = none
  minting : token.minting = .idle

variable {reliable : Prop} {barrier : Option Unit} {owes : Option ℕ} {token : Token}

theorem Token.Calm.claimed (calm : token.Calm barrier owes) (id : Option ℕ) :
    Token.Calm barrier owes { token with claim := id } := { calm with }

variable (id : ℕ) (calm : token.Calm barrier none)
include calm

/-- The id is marked used by the task that popped it. -/
theorem markIdUnchecked_claimed_wp (claimed : token.claim = some id) :
    (protocol reliable).wp token (markIdUnchecked id true) fun token' r =>
      match r with
      | .ok true => token'.Calm barrier (some id)
      | _ => token'.Calm barrier none := by
  refine wp_op ⟨calm.owes_eq, calm.settle, .inl ⟨calm.minting, claimed⟩⟩ ?_
  rintro (_ | _ | _) token' post
  · obtain ⟨rfl, _⟩ := post
    exact wp_ret calm
  · obtain ⟨rfl, _⟩ := post
    exact wp_ret calm
  · obtain rfl : token' = _ := post
    refine wp_op rfl ?_
    rintro _ token' rfl
    refine wp_ret { calm with owes_eq := rfl, settle := rfl, minting := ?_ }
    simp only [calm.minting]
    rfl

theorem markId_claimed_wp (claimed : token.claim = some id) :
    (protocol reliable).wp token (markId id true) fun token' r =>
      match r with
      | .ok true => token'.Calm barrier (some id)
      | _ => token'.Calm barrier none := by
  refine wp_op trivial ?_
  rintro (minter : IdMinter) token' ⟨rfl, _⟩
  split_ifs with outside
  · exact wp_ret { calm with }
  · exact markIdUnchecked_claimed_wp id { calm with } claimed

omit calm

theorem markFree_wp (calm : token.Calm barrier owes) :
    (protocol reliable).wp token (markFree id) fun token' _ => token'.Calm barrier owes := by
  refine wp_bind ?_
  refine wp_op trivial ?_
  rintro (minter : IdMinter) token' ⟨rfl, _⟩
  split_ifs with outside
  · exact wp_ret (wp_ret { calm with })
  · refine wp_op ⟨calm.settle, calm.announce, minter, rfl, Nat.lt_of_not_le outside⟩ ?_
    rintro (_ | _ | _) token' post
    · obtain ⟨rfl, _⟩ := post
      exact wp_ret (wp_ret { calm with })
    · obtain ⟨rfl, _⟩ := post
      exact wp_ret (wp_ret { calm with })
    · obtain rfl : token' = _ := post
      refine wp_op rfl ?_
      rintro _ token' rfl
      refine wp_op (.inr rfl) ?_
      rintro _ token' rfl
      refine wp_op trivial ?_
      rintro _ token' rfl
      exact wp_ret (wp_ret { calm with settle := rfl, announce := rfl })

/-! ## The scan -/

/-- An id below the counter and below the end of the blocks may be pushed. -/
theorem push_allowed (reliable : Prop) {m : IdMinter} {id : ℕ} (bound : token.bound = some m) (below : id < m.nextId)
    (inside : id < (m.maxBlock + 1) * blockSizeIds) : token.pre reliable (.push id) :=
  .inl ⟨m, bound, below, Nat.le_of_lt_succ ((Nat.div_lt_iff_lt_mul (by decide)).mpr inside)⟩

variable (announce : token.announce = none)
include announce

theorem scanBits_wp {m : IdMinter} (bound : token.bound = some m)
    (byte : BitVec 8) (left id : ℕ) (found : Bool)
    (inside : id + left ≤ (m.maxBlock + 1) * blockSizeIds) :
    (protocol reliable).wp token (scanBits m.nextId byte left id found) fun token' scan =>
      token' = token ∧ (scan.stopped = false → scan.id = id + left) := by
  induction left generalizing id found with
  | zero => exact wp_ret ⟨rfl, fun _ => rfl⟩
  | succ left ih =>
    have rest (found : Bool) := ih (id + 1) found (by omega)
    rw [Nat.add_right_comm] at rest
    unfold scanBits
    split_ifs with outside used
    · exact wp_ret ⟨rfl, nofun⟩
    · exact rest found
    · refine wp_op trivial ?_
      rintro _ _ rfl
      have same : { token with announce := if true then none else token.announce } = token := by
        simp only [if_true, ← announce]
      rw [same]
      refine wp_op (push_allowed reliable bound (Nat.lt_of_not_le outside) (by omega)) ?_
      rintro (_ | _) _ rfl
      · exact wp_ret ⟨rfl, nofun⟩
      · exact rest true

theorem scanBytes_wp {m : IdMinter} (bound : token.bound = some m)
    (block : Block) (left id : ℕ) (found : Bool)
    (inside : id + left * 8 ≤ (m.maxBlock + 1) * blockSizeIds) :
    (protocol reliable).wp token (scanBytes m.nextId block left id found) fun token' scan =>
      token' = token ∧ (scan.stopped = false → scan.id = id + left * 8) := by
  induction left generalizing id found with
  | zero => exact wp_ret ⟨rfl, fun _ => rfl⟩
  | succ left ih =>
    have rest (found : Bool) := ih (id + 8) found (by omega)
    have end_eq : id + 8 + left * 8 = id + (left + 1) * 8 := by omega
    rw [end_eq] at rest
    unfold scanBytes
    split_ifs with outside full
    · exact wp_ret ⟨rfl, nofun⟩
    · exact rest found
    · refine wp_seq (scanBits_wp announce bound _ 8 id found (by omega)) ?_
      rintro _ ⟨stopped, id', found'⟩ ⟨rfl, moved⟩
      cases stopped with
      | true => exact wp_ret ⟨rfl, nofun⟩
      | false =>
        obtain rfl : id' = id + 8 := moved rfl
        exact rest found'

theorem scanBlocks_wp {m : IdMinter} (bound : token.bound = some m)
    (left blockId : ℕ) {id : ℕ} (found : Bool)
    (inside : id + left * blockSizeIds ≤ (m.maxBlock + 1) * blockSizeIds) :
    (protocol reliable).wp token (scanBlocks m.nextId left blockId id found) fun token' _ =>
      token' = token := by
  induction left generalizing id blockId found with
  | zero => exact wp_ret rfl
  | succ left ih =>
    have size : blockSizeBytes * 8 = blockSizeIds := by decide
    have split : (left + 1) * blockSizeIds = blockSizeIds + left * blockSizeIds := by
      rw [Nat.succ_mul, Nat.add_comm]
    unfold scanBlocks
    split_ifs with outside
    · exact wp_ret rfl
    · refine wp_op trivial ?_
      rintro (_ | block) _ rfl
      · exact wp_ret rfl
      · refine wp_seq (scanBytes_wp announce bound block blockSizeBytes id found (by omega)) ?_
        rintro _ ⟨stopped, id', found'⟩ ⟨rfl, moved⟩
        cases stopped with
        | true => exact wp_ret rfl
        | false =>
          obtain rfl : id' = id + blockSizeBytes * 8 := moved rfl
          exact ih (blockId + 1) found' (show id + blockSizeBytes * 8 + _ ≤ _ by omega)

omit announce

theorem refillFastFreeList_wp (calm : token.Calm barrier owes) :
    (protocol reliable).wp token refillFastFreeList fun token' _ => token'.Calm barrier owes := by
  refine wp_op calm.refill ?_
  rintro _ _ rfl
  refine wp_op trivial ?_
  rintro (_ | _) _ rfl
  · refine wp_op rfl ?_
    rintro _ _ rfl
    exact wp_ret { calm with refill := rfl }
  · refine wp_op trivial ?_
    rintro (m : IdMinter) _ ⟨rfl, _⟩
    refine wp_seq (scanBlocks_wp (by exact calm.announce) rfl (m.maxBlock + 1) 0 false
      (Nat.zero_add _).le) ?_
    rintro _ (error | _ | _) rfl
    · refine wp_op rfl ?_
      rintro _ _ rfl
      exact wp_ret { calm with refill := rfl }
    · refine wp_op trivial ?_
      rintro _ _ rfl
      refine wp_op rfl ?_
      rintro _ _ rfl
      exact wp_ret { calm with refill := rfl }
    · refine wp_op rfl ?_
      rintro _ _ rfl
      exact wp_ret { calm with refill := rfl }

/-! ## Taking an id -/

include calm

theorem claim_wp (claimed : token.claim = some id) :
    (protocol reliable).wp token (claim id) fun token' r =>
      match r with
      | .inr (.ok (some id)) => token'.Calm barrier (some id)
      | _ => token'.Calm barrier none := by
  refine wp_seq (markId_claimed_wp id calm claimed) ?_
  rintro token' (error | _ | _) calm
  all_goals exact wp_ret calm

theorem reuse_wp :
    (protocol reliable).wp token reuse fun token' r =>
      match r with
      | .ok (some id) => token'.Calm barrier (some id)
      | _ => token'.Calm barrier none := by
  refine wp_repeatUntil (fun token _ => token.Calm barrier none) ?_ calm
  intro token _ calm
  refine wp_op trivial ?_
  rintro (_ | id) _ rfl
  · refine wp_seq (refillFastFreeList_wp (calm.claimed none)) ?_
    rintro token' (error | _ | _) calm
    · exact wp_ret calm
    · exact wp_ret calm
    · refine wp_op trivial ?_
      rintro (_ | id) _ rfl
      · exact wp_ret { calm with }
      · refine wp_mono (claim_wp id (calm.claimed (some id)) rfl) ?_
        rintro token' (_ | _ | _ | _) post <;> exact post
  · refine wp_mono (claim_wp id (calm.claimed (some id)) rfl) ?_
    rintro token' (_ | _ | _ | _) post <;> exact post

omit calm in
theorem expandTo_wp {m : IdMinter} (sane : m.Sane reliable)
    (bumped : token.minting = .bumped m.nextId m.maxBlock) :
    (protocol reliable).wp token (expandTo m m.nextId) fun token' r =>
      match r with
      | .ok () => ∃ max, m.nextId / blockSizeIds ≤ max ∧
          token' = { token with minting := .bumped m.nextId max }
      | .error _ => token' = token ∧ ¬ reliable := by
  have exists_block : m.maxBlock ≠ u32Max := sane.2.1.ne
  by_cases next : m.nextId / blockSizeIds = m.maxBlock + 1
  · simp only [expandTo, indexesForId, next, or_true]
    refine wp_op ⟨m.nextId, m.maxBlock, bumped, rfl, next⟩ ?_
    rintro (_ | _) token' post
    · obtain ⟨rfl, unreliable⟩ := post
      exact wp_ret ⟨rfl, unreliable⟩
    · obtain rfl := post _ _ bumped
      refine wp_op ⟨m.nextId, m.maxBlock, rfl, if_neg exists_block⟩ ?_
      rintro _ token' post
      obtain rfl := post _ _ rfl
      exact wp_ret ⟨_, by rw [if_neg exists_block], rfl⟩
  · have mapped : ¬ (m.maxBlock = u32Max ∨ m.nextId / blockSizeIds = m.maxBlock + 1) :=
      not_or.mpr ⟨exists_block, next⟩
    rw [expandTo, indexesForId]
    dsimp only
    rw [if_neg mapped]
    by_cases beyond : m.maxBlock + 1 < m.nextId / blockSizeIds
    · rw [if_pos beyond]
      refine wp_ret ⟨rfl, fun r => ?_⟩
      have room := sane.2.2 r
      rw [Nat.mul_comm] at room
      exact (Nat.div_le_of_le_mul room).not_gt beyond
    · rw [if_neg beyond]
      exact wp_ret ⟨m.maxBlock, by omega, by rw [← bumped]⟩

theorem mint_wp :
    (protocol reliable).wp token mint fun token' r =>
      match r with
      | .ok id => token'.Calm barrier (some id)
      | .error _ => token'.Calm barrier none := by
  refine wp_op calm.minting ?_
  rintro (m : IdMinter) _ ⟨rfl, sane⟩
  split_ifs with limit
  · exact wp_panic_iff.mpr trivial
  refine wp_op ⟨m, rfl, rfl, lt_of_le_of_ne sane.1 limit⟩ ?_
  rintro _ token' post
  obtain rfl := post m rfl
  refine wp_seq (expandTo_wp sane rfl) ?_
  rintro _ (error | _) post
  · obtain ⟨rfl, unreliable⟩ := post
    refine wp_op (.inr ⟨unreliable, _, _, rfl⟩) ?_
    rintro _ _ rfl
    exact wp_ret { calm with minting := rfl }
  · obtain ⟨max, block, rfl⟩ := post
    refine wp_bind (wp_op ⟨calm.owes_eq, calm.settle, .inr ⟨max, rfl, block⟩⟩ ?_)
    rintro (_ | _ | _) token' post
    · obtain ⟨rfl, unreliable⟩ := post
      refine wp_ret (wp_op (.inr ⟨unreliable, _, _, rfl⟩) ?_)
      rintro _ _ rfl
      exact wp_ret { calm with minting := rfl }
    · -- the bit of a minted id is clear, so the write changes it
      obtain ⟨_, idle⟩ := post
      cases idle rfl
    · obtain rfl : token' = _ := post
      refine wp_op rfl ?_
      rintro _ _ rfl
      refine wp_ret (wp_op (.inl ⟨m.nextId, rfl⟩) ?_)
      rintro _ _ rfl
      exact wp_ret { calm with owes_eq := rfl, settle := rfl, minting := rfl }

omit calm

theorem mintGuarded_wp (held : Barrier) (calm : token.Calm (some ()) none) :
    (protocol reliable).wp token (mintGuarded held) fun token' r =>
      match r with
      | .ok guard => token'.Calm (some ()) (some guard.id)
      | .error _ => token'.Calm none none := by
  refine wp_seq (mint_wp calm) ?_
  rintro token' (error | id) calm
  · refine wp_op calm.barrier_eq ?_
    rintro _ _ rfl
    exact wp_ret { calm with barrier_eq := rfl }
  · exact wp_ret calm

theorem nextId_wp (calm : token.Calm none none) :
    (protocol reliable).wp token nextId fun token' r =>
      match r with
      | .ok guard => token'.Calm (some ()) (some guard.id)
      | .error _ => token'.Calm none none := by
  refine wp_op calm.barrier_eq ?_
  rintro (held : Barrier) _ rfl
  replace calm : Token.Calm (some ()) none { token with barrier := some () } :=
    { calm with barrier_eq := rfl }
  refine wp_op trivial ?_
  rintro (_ | _) _ rfl
  · exact mintGuarded_wp held calm
  · refine wp_op trivial ?_
    rintro (_ | _) _ rfl
    · exact mintGuarded_wp held calm
    · refine wp_seq (reuse_wp calm) ?_
      rintro token' (error | _ | id) calm
      · refine wp_op calm.barrier_eq ?_
        rintro _ _ rfl
        exact wp_ret { calm with barrier_eq := rfl }
      · exact mintGuarded_wp held calm
      · exact wp_ret calm

/-! ## The calls of `next_id` -/

/-- The operations of `next_id`: it clears no bit and does not touch the flags of the index. -/
def Op.ForNextId : Op → Prop
  | .rmw _ false | .fetchSubTotal | .returns _ | .enableQuantization | .enableReuse
  | .maxIdForBackfill => False
  | _ => True

theorem markIdUnchecked_calls : (markIdUnchecked id true).Calls Op.ForNextId := by
  refine ⟨trivial, fun out : Option Bool => ?_⟩
  rcases out with _ | _ | _
  · trivial
  · trivial
  · exact ⟨trivial, fun _ => trivial⟩

theorem claim_calls : (claim id).Calls Op.ForNextId := by
  refine Prog.Calls.bind ⟨trivial, fun minter : IdMinter => ?_⟩ fun marked => ?_
  · dsimp only [Prog.bind_ret]
    split_ifs
    · trivial
    · exact markIdUnchecked_calls id
  · cases marked <;> trivial

theorem scanBits_calls (nextId : ℕ) (byte : BitVec 8) (left id : ℕ) (found : Bool) :
    (scanBits nextId byte left id found).Calls Op.ForNextId := by
  induction left generalizing id found with
  | zero => trivial
  | succ left ih =>
    unfold scanBits
    split_ifs
    · trivial
    · exact ih _ _
    · refine ⟨trivial, fun _ => ⟨trivial, fun room : Bool => ?_⟩⟩
      cases room with
      | false => trivial
      | true => exact ih _ _

theorem scanBytes_calls (nextId : ℕ) (block : Block) (left id : ℕ) (found : Bool) :
    (scanBytes nextId block left id found).Calls Op.ForNextId := by
  induction left generalizing id found with
  | zero => trivial
  | succ left ih =>
    unfold scanBytes
    split_ifs
    · trivial
    · exact ih _ _
    · refine (scanBits_calls nextId _ 8 id found).bind fun scan => ?_
      split_ifs
      · trivial
      · exact ih _ _

theorem scanBlocks_calls (nextId left blockId id : ℕ) (found : Bool) :
    (scanBlocks nextId left blockId id found).Calls Op.ForNextId := by
  induction left generalizing blockId id found with
  | zero => trivial
  | succ left ih =>
    unfold scanBlocks
    split_ifs
    · trivial
    · refine ⟨trivial, fun block : Option Block => ?_⟩
      cases block with
      | none => trivial
      | some block =>
        refine (scanBytes_calls nextId block blockSizeBytes id found).bind fun scan => ?_
        split_ifs
        · trivial
        · exact ih _ _ _

theorem refillFastFreeList_calls : refillFastFreeList.Calls Op.ForNextId := by
  refine ⟨trivial, fun _ => ⟨trivial, fun empty : Bool => ?_⟩⟩
  cases empty with
  | false => exact ⟨trivial, fun _ => trivial⟩
  | true =>
    refine ⟨trivial, fun minter : IdMinter => ?_⟩
    refine (scanBlocks_calls minter.nextId (minter.maxBlock + 1) 0 0 false).bind fun scanned => ?_
    rcases scanned with error | _ | _
    · exact ⟨trivial, fun _ => trivial⟩
    · exact ⟨trivial, fun _ => ⟨trivial, fun _ => trivial⟩⟩
    · exact ⟨trivial, fun _ => trivial⟩

theorem reuse_calls : reuse.Calls Op.ForNextId := by
  refine ⟨fun _ => ⟨trivial, fun first : Option ℕ => ?_⟩, fun _ => trivial⟩
  cases first with
  | some id => exact claim_calls id
  | none =>
    refine refillFastFreeList_calls.bind fun refilled => ?_
    rcases refilled with error | _ | _
    · trivial
    · trivial
    · refine ⟨trivial, fun second : Option ℕ => ?_⟩
      cases second with
      | none => trivial
      | some id => exact claim_calls id

theorem expandTo_calls (minter : IdMinter) (id : ℕ) : (expandTo minter id).Calls Op.ForNextId := by
  rw [expandTo]
  dsimp only
  split
  · refine ⟨trivial, fun written : Bool => ?_⟩
    cases written with
    | false => trivial
    | true => exact ⟨trivial, fun _ => trivial⟩
  · split <;> trivial

theorem mint_calls : mint.Calls Op.ForNextId := by
  refine ⟨trivial, fun minter : IdMinter => ?_⟩
  dsimp only [Prog.bind_ret]
  split_ifs
  · trivial
  · refine ⟨trivial, fun _ => (expandTo_calls minter minter.nextId).bind fun expanded => ?_⟩
    cases expanded with
    | error error => exact ⟨trivial, fun _ => trivial⟩
    | ok =>
      refine (markIdUnchecked_calls minter.nextId).bind fun marked => ?_
      cases marked <;> exact ⟨trivial, fun _ => trivial⟩

theorem mintGuarded_calls (barrier : Barrier) : (mintGuarded barrier).Calls Op.ForNextId := by
  refine mint_calls.bind fun minted => ?_
  cases minted with
  | error error => exact ⟨trivial, fun _ => trivial⟩
  | ok id => trivial

theorem nextId_calls : nextId.Calls Op.ForNextId := by
  refine ⟨trivial, fun barrier : Barrier => ⟨trivial, fun enabled : Bool => ?_⟩⟩
  cases enabled with
  | false => exact mintGuarded_calls barrier
  | true =>
    refine ⟨trivial, fun free : Bool => ?_⟩
    cases free with
    | false => exact mintGuarded_calls barrier
    | true =>
      refine reuse_calls.bind fun reused => ?_
      rcases reused with error | _ | id
      · exact ⟨trivial, fun _ => trivial⟩
      · exact mintGuarded_calls barrier
      · trivial

/-! ## Clients -/

theorem Request.code_wp (request : Request) (calm : token.Calm none none) :
    (protocol reliable).wp token request.code fun token' _ => token'.Calm none none := by
  cases request with
  | nextId =>
    refine wp_seq (nextId_wp calm) ?_
    rintro token' (error | guard) calm
    · refine wp_op_iff.mpr ⟨trivial, ?_⟩
      rintro _ _ rfl
      exact calm
    · refine wp_op calm.owes_eq ?_
      rintro _ _ rfl
      refine wp_op_iff.mpr ⟨calm.barrier_eq, ?_⟩
      rintro _ _ rfl
      exact { calm with barrier_eq := rfl, owes_eq := rfl }
  | markFree id =>
    refine wp_seq (markFree_wp id calm) ?_
    intro token' res calm
    refine wp_op_iff.mpr ⟨trivial, ?_⟩
    rintro _ _ rfl
    exact calm

theorem client_wp (requests : List Request) (calm : token.Calm none none) :
    (protocol reliable).wp token (client requests) fun token' _ => token'.Calm none none := by
  induction requests generalizing token with
  | nil => exact wp_ret calm
  | cons request rest ih => exact wp_seq (request.code_wp calm) fun _ _ calm => ih calm

end DiskAnn.Garnet.Fsm
