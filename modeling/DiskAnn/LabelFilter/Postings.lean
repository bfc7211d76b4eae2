import DiskAnn.LabelFilter.GenericIndex

/-! # What is in the posting lists

A document is added to the lists of its attributes, and taken out of those that the store has for it
under its own key. So the lists are right as long as a document that is inserted again keeps the keys
it has, ids differ as 32-bit numbers, and keys differ where attributes do.
-/

namespace DiskAnn.LabelFilter

open List Function KvStore Bytes

/-! ## Key lists -/

/-- The numbers of a key list fit into its fields. -/
structure FitsKeyList (keys : List (List UInt8)) : Prop where
  count : keys.length < 2 ^ 32
  lengths : ∀ key ∈ keys, key.length < 2 ^ 32
  total : 4 + (keys.map fun k => 4 + k.length).sum < 2 ^ 64

theorem deserializeKeys_flatMap {keys : List (List UInt8)} (lengths : ∀ key ∈ keys, key.length < 2 ^ 32)
    (i : ℕ) : deserializeKeys keys.length i (keys.flatMap fun k => toLe 4 k.length ++ k) =
      .ok keys := by
  induction keys generalizing i with
  | nil => rfl
  | cons key keys ih =>
    have rest := ih (fun other mem => lengths other (mem_cons_of_mem _ mem)) (i + 1)
    have length : (toLe 4 key.length).length = 4 := length_toLe ..
    have len : ofLe (toLe 4 key.length) = key.length :=
      ofLe_toLe (lengths key mem_cons_self)
    rw [length_cons, flatMap_cons, append_assoc, deserializeKeys]
    rw [take_left' length, drop_left' length, len]
    dsimp only
    rw [drop_left, rest, if_neg]
    · simp
    · simp

theorem serializeKeyList_roundTrip {keys : List (List UInt8)} (fits : FitsKeyList keys) :
    ∃ value, serializeKeyList keys = .ok value ∧ deserializeKeyList value = .ok keys := by
  refine ⟨_, if_pos fits.total, ?_⟩
  have length : (toLe 4 keys.length).length = 4 := length_toLe ..
  have count : ofLe (toLe 4 keys.length) = keys.length := ofLe_toLe fits.count
  rw [deserializeKeyList, if_neg, take_left' length, count]
  · exact deserializeKeys_flatMap fits.lengths 0
  · simp

namespace GenericIndex

variable {format : RoaringFormat} {store : KvStore}

/-! ## One loop -/

/-- A key that is not that of a document. -/
def IsPosting (key : List UInt8) : Prop := ∀ docId, key ≠ reverseKey docId

/-- The posting lists of the store; an empty one need not be stored. -/
structure Lists (format : RoaringFormat) (store : KvStore) (sets : List UInt8 → Finset (BitVec 32)) :
    Prop where
  stored : ∀ key, IsPosting key → store.get key = some (format.serialize (sets key)) ∨
    store.get key = none ∧ sets key = ∅

variable {sets : List UInt8 → Finset (BitVec 32)}

theorem deserializePostingList_serialize (rb : Finset (BitVec 32)) :
    deserializePostingList format (format.serialize rb) = .ok ⟨rb⟩ := by
  simp [deserializePostingList, RoaringPostingList.deserialize, format.deserialize_serialize]

variable (lists : Lists format store sets)
include lists

theorem Lists.getOrEmptyPostingList {key : List UInt8}
    (posting : IsPosting key) : getOrEmptyPostingList format store key = .ok ⟨sets key⟩ := by
  unfold GenericIndex.getOrEmptyPostingList
  rcases lists.stored key posting with stored | ⟨absent, none⟩
  · simp only [stored, deserializePostingList_serialize]
  · simp only [absent, none]
    rfl

theorem Lists.set (key : List UInt8) (rb : Finset (BitVec 32)) :
    Lists format (store.set key (format.serialize rb)) (Function.update sets key rb) where
  stored other posting := by
    rw [get_set, update_apply]
    split
    · exact .inl rfl
    · exact lists.stored other posting

theorem Lists.del (key : List UInt8) :
    Lists format (store.del key) (Function.update sets key ∅) where
  stored other posting := by
    rw [get_del, update_apply]
    split
    · exact .inr ⟨rfl, rfl⟩
    · exact lists.stored other posting

/-- The documents' own entries are those of another store. -/
def SameReverse (store store' : KvStore) : Prop :=
  ∀ docId, store'.get (reverseKey docId) = store.get (reverseKey docId)

theorem insertLoop_lists (docId : ℕ) {keys : List (List UInt8)}
    (posting : ∀ key ∈ keys, IsPosting key) :
    ∃ store', insertLoop format docId keys store = (.ok (), store') ∧ SameReverse store store' ∧
      Lists format store' fun key =>
        if key ∈ keys then sets key ∪ {BitVec.ofNat 32 docId} else sets key := by
  induction keys generalizing store sets with
  | nil => exact ⟨store, rfl, fun _ => rfl, by simpa using lists⟩
  | cons key keys ih =>
    have first := posting key mem_cons_self
    obtain ⟨store', looped, same, lists'⟩ := ih (lists.set key
      (sets key ∪ {BitVec.ofNat 32 docId})) fun other mem =>
        posting other (mem_cons_of_mem _ mem)
    refine ⟨store', ?_, fun id => ?_, ?_⟩
    · simp only [insertLoop, lists.getOrEmptyPostingList first]
      exact looped
    · rw [same id, get_set, if_neg (first id).symm]
    · convert lists' using 2 with other
      by_cases here : other = key
      · subst here
        simp
      · simp [here]

theorem deleteLoop_lists (docId : ℕ) {keys : List (List UInt8)}
    (posting : ∀ key ∈ keys, IsPosting key) :
    ∃ store', deleteLoop format docId keys store = (.ok (), store') ∧ SameReverse store store' ∧
      Lists format store' fun key =>
        if key ∈ keys then (sets key).erase (BitVec.ofNat 32 docId) else sets key := by
  induction keys generalizing store sets with
  | nil => exact ⟨store, rfl, fun _ => rfl, by simpa using lists⟩
  | cons key keys ih =>
    have first := posting key mem_cons_self
    -- One key is taken out, whichever way it is written back.
    obtain ⟨next, looped, same, lists⟩ : ∃ next, deleteLoop format docId (key :: keys) store =
        deleteLoop format docId keys next ∧ SameReverse store next ∧ Lists format next
          (Function.update sets key ((sets key).erase (BitVec.ofNat 32 docId))) := by
      rcases lists.stored key first with stored | ⟨absent, none⟩
      · simp only [deleteLoop, stored, deserializePostingList_serialize]
        split <;> rename_i empty
        · refine ⟨_, rfl, fun id => ?_, ?_⟩
          · rw [get_del, if_neg (first id).symm]
          · have gone : (sets key).erase (BitVec.ofNat 32 docId) = ∅ := of_decide_eq_true empty
            rw [gone]
            exact lists.del key
        · refine ⟨_, rfl, fun id => ?_, lists.set key _⟩
          rw [get_set, if_neg (first id).symm]
      · simp only [deleteLoop, absent]
        refine ⟨_, rfl, fun _ => rfl, ?_⟩
        rw [none, Finset.erase_empty, ← none, update_eq_self]
        exact lists
    obtain ⟨store', rest, same', lists'⟩ := ih lists fun other mem =>
      posting other (mem_cons_of_mem _ mem)
    refine ⟨store', looped.trans rest, fun id => (same' id).trans (same id), ?_⟩
    convert lists' using 2 with other
    by_cases here : other = key
    · subst here
      simp
    · simp [here]

/-! ## One call -/

omit lists in
theorem isPosting_of_mem_keys (attrs : Attributes) {key : List UInt8} (mem : key ∈ attrs.keys) :
    IsPosting key := by
  obtain ⟨entry, -, rfl⟩ := mem_map.mp mem
  exact fun docId => encodeFieldValueKey_ne_reverseKey entry.1 entry.2 docId

/-- An insertion adds the document to the lists of its keys, whatever was stored for it. -/
theorem insert_lists (docId : ℕ) {attrs : Attributes}
    (fits : FitsKeyList attrs.keys) :
    ∃ store' value, insert format store docId attrs =
        (.ok (), store'.set (reverseKey docId) value) ∧
      deserializeKeyList value = .ok attrs.keys ∧ SameReverse store store' ∧
      Lists format (store'.set (reverseKey docId) value) fun key =>
        if key ∈ attrs.keys then sets key ∪ {BitVec.ofNat 32 docId} else sets key := by
  obtain ⟨store', looped, same, lists⟩ := insertLoop_lists lists docId
    fun key mem => isPosting_of_mem_keys attrs mem
  obtain ⟨value, written, restored⟩ := serializeKeyList_roundTrip fits
  refine ⟨store', value, ?_, restored, same, ⟨fun key posting => ?_⟩⟩
  · simp only [GenericIndex.insert, looped, written]
  · rw [get_set, if_neg (posting docId)]
    exact lists.stored key posting

omit lists

/-- The store holds what was last set for each document. -/
structure Indexed (format : RoaringFormat) (store : KvStore) (sets : List UInt8 → Finset (BitVec 32))
    (latest : ℕ → Option Attributes) : Prop where
  lists : Lists format store sets
  mem_sets : ∀ key, IsPosting key → ∀ n, n ∈ sets key ↔
    ∃ id, ∃ attrs ∈ latest id, key ∈ attrs.keys ∧ n = BitVec.ofNat 32 id
  reverse : ∀ id, latest id = none ∧ store.get (reverseKey id) = none ∨
    ∃ attrs value, latest id = some attrs ∧ store.get (reverseKey id) = some value ∧
      deserializeKeyList value = .ok attrs.keys

section Step

variable {latest : ℕ → Option Attributes} (indexed : Indexed format store sets latest)
include indexed

theorem Indexed.mem_insert {docId : ℕ}
    {attrs : Attributes} (keeps : ∀ old ∈ latest docId, old.keys ⊆ attrs.keys) {key : List UInt8}
    (posting : IsPosting key) (n : BitVec 32) :
    (n ∈ if key ∈ attrs.keys then sets key ∪ {BitVec.ofNat 32 docId} else sets key) ↔
      ∃ id, ∃ other ∈ Function.update latest docId (some attrs) id,
        key ∈ other.keys ∧ n = BitVec.ofNat 32 id := by
  have old := indexed.mem_sets key posting n
  have split : (n ∈ if key ∈ attrs.keys then sets key ∪ {BitVec.ofNat 32 docId} else sets key) ↔
      n ∈ sets key ∨ key ∈ attrs.keys ∧ n = BitVec.ofNat 32 docId := by
    split <;> rename_i mem <;> simp [mem, or_comm]
  rw [split, old]
  constructor
  · rintro (⟨id, other, given, mem, rfl⟩ | ⟨mem, rfl⟩)
    · by_cases here : id = docId
      · subst here
        exact ⟨id, attrs, update_self .., keeps other given mem, rfl⟩
      · exact ⟨id, other, by rwa [update_of_ne here], mem, rfl⟩
    · exact ⟨docId, attrs, update_self .., mem, rfl⟩
  · rintro ⟨id, other, given, mem, rfl⟩
    rw [update_apply] at given
    split at given <;> rename_i here
    · cases given
      exact .inr ⟨mem, congrArg _ here⟩
    · exact .inl ⟨id, other, given, mem, rfl⟩

theorem Indexed.insert (docId : ℕ) {attrs : Attributes}
    (fits : FitsKeyList attrs.keys) (keeps : ∀ old ∈ latest docId, old.keys ⊆ attrs.keys) :
    ∃ store' sets', insert format store docId attrs = (.ok (), store') ∧
      Indexed format store' sets' (Function.update latest docId (some attrs)) := by
  obtain ⟨store', value, inserted, restored, same, lists⟩ := insert_lists indexed.lists docId fits
  refine ⟨_, _, inserted, lists, fun key posting n => indexed.mem_insert keeps posting n,
    fun id => ?_⟩
  rw [get_set, update_apply]
  simp only [reverseKey_inj]
  split
  · exact .inr ⟨attrs, value, rfl, rfl, restored⟩
  · rw [same id]
    exact indexed.reverse id

/-- Ids of documents that are told apart as 32-bit numbers. -/
def Apart (ids : Set ℕ) : Prop := ids.InjOn (BitVec.ofNat 32)

theorem Indexed.mem_delete {ids : Set ℕ}
    (apart : Apart ids) (inside : ∀ id, (latest id).isSome → id ∈ ids) {docId : ℕ} {attrs : Attributes}
    (given : latest docId = some attrs) {key : List UInt8} (posting : IsPosting key) (n : BitVec 32) :
    (n ∈ if key ∈ attrs.keys then (sets key).erase (BitVec.ofNat 32 docId) else sets key) ↔
      ∃ id, ∃ other ∈ Function.update latest docId none id,
        key ∈ other.keys ∧ n = BitVec.ofNat 32 id := by
  have old := indexed.mem_sets key posting n
  have split : (n ∈ if key ∈ attrs.keys then (sets key).erase (BitVec.ofNat 32 docId) else sets key) ↔
      n ∈ sets key ∧ ¬(key ∈ attrs.keys ∧ n = BitVec.ofNat 32 docId) := by
    split <;> rename_i mem <;> simp [mem, and_comm]
  rw [split, old]
  constructor
  · rintro ⟨⟨id, other, held, mem, rfl⟩, rest⟩
    refine ⟨id, other, ?_, mem, rfl⟩
    rwa [update_of_ne]
    rintro rfl
    obtain rfl := Option.some.inj (given.symm.trans held)
    exact rest ⟨mem, rfl⟩
  · rintro ⟨id, other, held, mem, rfl⟩
    rw [update_apply] at held
    split at held <;> rename_i here
    · cases held
    · refine ⟨⟨id, other, held, mem, rfl⟩, fun same => here ?_⟩
      exact apart (inside id (Option.isSome_of_mem held)) (inside docId (given ▸ rfl)) same.2

theorem Indexed.delete {ids : Set ℕ} (apart : Apart ids)
    (inside : ∀ id, (latest id).isSome → id ∈ ids) (docId : ℕ) :
    ∃ store' sets', delete format store docId = (.ok (), store') ∧
      Indexed format store' sets' (Function.update latest docId none) := by
  rcases indexed.reverse docId with ⟨none, absent⟩ | ⟨attrs, value, given, stored, restored⟩
  · refine ⟨store, sets, by simp only [GenericIndex.delete, absent], ?_⟩
    rwa [← none, update_eq_self]
  · obtain ⟨store', looped, same, lists⟩ := deleteLoop_lists indexed.lists docId
      fun key mem => isPosting_of_mem_keys attrs mem
    refine ⟨store'.del (reverseKey docId), fun key =>
        if key ∈ attrs.keys then (sets key).erase (BitVec.ofNat 32 docId) else sets key, ?_,
      ⟨fun key posting => ?_⟩, fun key posting n => indexed.mem_delete apart inside given posting n,
      fun id => ?_⟩
    · simp only [GenericIndex.delete, stored, restored, looped]
    · rw [get_del, if_neg (posting docId)]
      exact lists.stored key posting
    · rw [get_del, update_apply]
      simp only [reverseKey_inj]
      split
      · exact .inl ⟨rfl, rfl⟩
      · rw [same id]
        exact indexed.reverse id

end Step

/-! ## Whole runs -/

inductive Call
  | insert (docId : ℕ) (attributes : Attributes)
  | update (docId : ℕ) (attributes : Attributes)
  | delete (docId : ℕ)

def step (format : RoaringFormat) (store : KvStore) : Call → Except IndexError Unit × KvStore
  | .insert docId attributes => GenericIndex.insert format store docId attributes
  | .update docId attributes => GenericIndex.update format store docId attributes
  | .delete docId => GenericIndex.delete format store docId

/-- The store after the calls, from an empty one. -/
def run (format : RoaringFormat) (calls : List Call) : KvStore :=
  calls.foldl (fun store call => (step format store call).2) .new

/-- The attributes last set, after one more call. -/
def remember (latest : ℕ → Option Attributes) : Call → ℕ → Option Attributes
  | .insert docId attributes => Function.update latest docId (some attributes)
  | .update docId attributes => Function.update latest docId (some attributes)
  | .delete docId => Function.update latest docId none

/-- The latest attributes of each document that is present. -/
def latest (calls : List Call) : ℕ → Option Attributes := calls.foldl remember fun _ => none

/-- A document is in the posting list of a field and value. -/
def InPostingList (format : RoaringFormat) (store : KvStore) (field : String) (value : AttributeValue)
    (docId : ℕ) : Prop :=
  ∃ pl, getPostingList format store field value = .ok (some pl) ∧ pl.contains docId = true

/-- Attributes contain a field and value, up to the equality of values. -/
def Contains (attributes : Attributes) (field : String) (value : AttributeValue) : Prop :=
  ∃ entry ∈ attributes.entries, entry.1 = field ∧ entry.2.eq value = true

/-- What a call is given, and what an insertion finds: a document that is present keeps its keys. -/
def Call.Meets (ids : Set ℕ) (pairs : Set (String × AttributeValue))
    (latest : ℕ → Option Attributes) : Call → Prop
  | .insert docId attributes => docId ∈ ids ∧ (∀ entry ∈ attributes.entries, entry ∈ pairs) ∧
      FitsKeyList attributes.keys ∧ ∀ old ∈ latest docId, old.keys ⊆ attributes.keys
  | .update docId attributes => docId ∈ ids ∧ (∀ entry ∈ attributes.entries, entry ∈ pairs) ∧
      FitsKeyList attributes.keys
  | .delete docId => docId ∈ ids

/-- Every call of a run meets the condition. -/
def Meets (ids : Set ℕ) (pairs : Set (String × AttributeValue)) (calls : List Call) : Prop :=
  ∀ before call after, calls = before ++ call :: after →
    call.Meets ids pairs (GenericIndex.latest before)

/-- Keys tell attributes apart as their equality does. -/
def Separates (pairs : Set (String × AttributeValue)) : Prop :=
  ∀ p ∈ pairs, ∀ q ∈ pairs, DefaultKeyCodec.encodeFieldValueKey p.1 p.2 =
    DefaultKeyCodec.encodeFieldValueKey q.1 q.2 ↔ p.1 = q.1 ∧ p.2.eq q.2 = true

theorem indexed_new : Indexed format .new (fun _ => ∅) fun _ => none where
  lists := ⟨fun _ _ => .inr ⟨rfl, rfl⟩⟩
  mem_sets _ _ n := iff_of_false (Finset.notMem_empty n) (by simp)
  reverse _ := .inl ⟨rfl, rfl⟩

theorem Indexed.step {held : ℕ → Option Attributes} (indexed : Indexed format store sets held)
    {ids : Set ℕ} {pairs : Set (String × AttributeValue)} (apart : Apart ids)
    (inside : ∀ id, (held id).isSome → id ∈ ids) {call : Call} (meets : call.Meets ids pairs held) :
    ∃ store' sets', step format store call = (.ok (), store') ∧
      Indexed format store' sets' (remember held call) := by
  cases call with
  | insert docId attrs =>
    obtain ⟨-, -, fits, keeps⟩ := meets
    exact indexed.insert docId fits keeps
  | update docId attrs =>
    obtain ⟨store₁, sets₁, deleted, indexed₁⟩ := indexed.delete apart inside docId
    obtain ⟨store₂, sets₂, inserted, indexed₂⟩ := indexed₁.insert docId meets.2.2 (by simp)
    refine ⟨store₂, sets₂, ?_, ?_⟩
    · simp only [GenericIndex.step, GenericIndex.update, deleted, inserted]
    · rwa [update_idem] at indexed₂
  | delete docId => exact indexed.delete apart inside docId

/-- The documents and attributes are those given. -/
def Given (ids : Set ℕ) (pairs : Set (String × AttributeValue)) (held : ℕ → Option Attributes) : Prop :=
  ∀ id, ∀ attrs ∈ held id, id ∈ ids ∧ ∀ entry ∈ attrs.entries, entry ∈ pairs

section Given

variable {ids : Set ℕ} {pairs : Set (String × AttributeValue)} {held : ℕ → Option Attributes}
  (given : Given ids pairs held)
include given

theorem Given.inside (id : ℕ) (present : (held id).isSome) : id ∈ ids := by
  obtain ⟨attrs, found⟩ := Option.isSome_iff_exists.mp present
  exact (given id attrs found).1

theorem Given.update {docId : ℕ} {attrs : Attributes}
    (mem : docId ∈ ids) (entries : ∀ entry ∈ attrs.entries, entry ∈ pairs) :
    Given ids pairs (Function.update held docId (some attrs)) := by
  intro id other found
  rw [update_apply] at found
  split at found <;> rename_i here
  · cases found
    exact ⟨here ▸ mem, entries⟩
  · exact given id other found

theorem Given.remember {call : Call}
    (meets : call.Meets ids pairs held) : Given ids pairs (remember held call) := by
  cases call with
  | insert docId attrs => exact given.update meets.1 meets.2.1
  | update docId attrs => exact given.update meets.1 meets.2.1
  | delete docId =>
    intro id other found
    rw [GenericIndex.remember, Function.update_apply] at found
    split at found
    · cases found
    · exact given id other found

end Given

theorem indexed_run (format : RoaringFormat) {ids : Set ℕ} {pairs : Set (String × AttributeValue)}
    (apart : Apart ids) {calls : List Call} (meets : Meets ids pairs calls) :
    (∃ sets, Indexed format (run format calls) sets (latest calls)) ∧
      Given ids pairs (latest calls) := by
  induction calls using reverseRecOn with
  | nil => exact ⟨⟨_, indexed_new⟩, nofun⟩
  | append_singleton calls call ih =>
    obtain ⟨⟨sets, indexed⟩, given⟩ := ih fun before call' after split =>
      meets before call' (after ++ [call]) (by simp [split])
    have condition := meets calls call [] rfl
    obtain ⟨store', sets', stepped, indexed'⟩ := indexed.step apart given.inside condition
    have next : run format (calls ++ [call]) = store' := by
      rw [run, foldl_append]
      exact congrArg Prod.snd stepped
    have remembered : latest (calls ++ [call]) = remember (latest calls) call := by
      rw [latest, foldl_append]
      rfl
    rw [next, remembered]
    exact ⟨⟨sets', indexed'⟩, given.remember condition⟩

theorem Lists.inPostingList (lists : Lists format store sets)
    (field : String) (value : AttributeValue) (docId : ℕ) :
    InPostingList format store field value docId ↔ BitVec.ofNat 32 docId ∈
      sets (DefaultKeyCodec.encodeFieldValueKey field value) := by
  unfold InPostingList getPostingList
  rcases lists.stored _ (encodeFieldValueKey_ne_reverseKey field value) with
    stored | ⟨absent, none⟩
  · simp [stored, deserializePostingList_serialize, RoaringPostingList.contains]
  · simp [absent, none]

/-- A format: the numbers of a set in ascending order. -/
def wordsFormat : RoaringFormat where
  serialize rb := Bytes.ofWords ((rb.sort (· ≤ ·)).map BitVec.toNat)
  deserialize bytes := .ok ((Bytes.toWords (bytes.length / 4) bytes).map (BitVec.ofNat 32)).toFinset
  deserialize_serialize rb := by
    have fit : ∀ word ∈ (rb.sort (· ≤ ·)).map BitVec.toNat, word < 2 ^ 32 := by
      intro word member
      obtain ⟨n, -, rfl⟩ := mem_map.mp member
      exact n.isLt
    rw [Bytes.length_ofWords, Nat.mul_div_cancel _ (by decide), Bytes.toWords_ofWords fit, map_map]
    have same : BitVec.ofNat 32 ∘ BitVec.toNat = id := funext fun n => BitVec.ofNat_toNat .. |>.trans
      (BitVec.setWidth_eq n)
    rw [same, map_id, Finset.sort_toFinset]

/-- One field with a value. -/
def labelled (value : Bool) : Attributes := ⟨[("a", .bool value)], by simp⟩

theorem labelled_fits (value : Bool) : FitsKeyList (labelled value).keys := by
  cases value <;> exact ⟨by decide, by decide +kernel, by decide +kernel⟩

/-- The values of that field. -/
def labels : Set (String × AttributeValue) := {("a", .bool true), ("a", .bool false)}

theorem labels_separated : Separates labels := by
  have differ : DefaultKeyCodec.encodeFieldValueKey "a" (.bool true) ≠
      DefaultKeyCodec.encodeFieldValueKey "a" (.bool false) := by decide +kernel
  rintro p (rfl | rfl) q (rfl | rfl)
  · exact iff_of_true rfl ⟨rfl, rfl⟩
  · exact iff_of_false differ (by decide)
  · exact iff_of_false differ.symm (by decide)
  · exact iff_of_true rfl ⟨rfl, rfl⟩

theorem entries_labelled (value : Bool) : ∀ entry ∈ (labelled value).entries, entry ∈ labels := by
  intro entry mem
  obtain rfl := mem_singleton.mp mem
  cases value
  · exact .inr rfl
  · exact .inl rfl

end GenericIndex

end DiskAnn.LabelFilter
