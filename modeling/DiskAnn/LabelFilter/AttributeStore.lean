import DiskAnn.LabelFilter.Attribute

/-! # The attribute store

`attribute_encoder.rs`, `roaring_set_provider.rs` and `roaring_attribute_store.rs`: attributes are
numbered, and the store keeps the numbers of each vector and the vectors of each number. A call holds
its locks from beginning to end, so calls are steps on the three maps.
-/

namespace DiskAnn.LabelFilter

/-- `into_usize`, which loses nothing. -/
class IntoUsize (IT : Type) where
  intoUsize : IT → ℕ
  injective : Function.Injective intoUsize

export IntoUsize (intoUsize)

/-! ## Sets -/

/-- `RoaringTreemapSetProvider` -/
structure SetProvider (Key : Type) where
  index : Key → Option (Finset ℕ)

namespace SetProvider

variable {Key : Type} [DecidableEq Key]

def new : SetProvider Key := ⟨fun _ => none⟩

def get (p : SetProvider Key) (id : Key) : Option (Finset ℕ) := p.index id

/-- The answer is whether the value is new. -/
def insert (p : SetProvider Key) (id : Key) (value : ℕ) : Bool × SetProvider Key :=
  let setOfId := (p.index id).getD ∅
  (value ∉ setOfId, ⟨Function.update p.index id (some (setOfId ∪ {value}))⟩)

def delete (p : SetProvider Key) (key : Key) : Bool × SetProvider Key :=
  ((p.index key).isSome, ⟨Function.update p.index key none⟩)

def deleteFromSet (p : SetProvider Key) (key : Key) (value : ℕ) : Bool × SetProvider Key :=
  match p.index key with
  | some set => (value ∈ set, ⟨Function.update p.index key (some (set.erase value))⟩)
  | none => (false, p)

/-- The value is in the set of the key. -/
def Mem (p : SetProvider Key) (key : Key) (value : ℕ) : Prop := ∃ set ∈ p.get key, value ∈ set

variable {p : SetProvider Key} {id key : Key} {value v : ℕ}

omit [DecidableEq Key] in
theorem not_mem_new : ¬(new : SetProvider Key).Mem key value := by
  rintro ⟨set, known, -⟩
  cases known

omit [DecidableEq Key] in
theorem mem_iff_getD : p.Mem key value ↔ value ∈ (p.get key).getD ∅ := by
  unfold Mem
  cases p.get key with
  | none => simp
  | some set => simp

theorem get_insert : (p.insert id value).2.get key =
    if key = id then some ((p.get id).getD ∅ ∪ {value}) else p.get key :=
  Function.update_apply ..

theorem get_delete : (p.delete id).2.get key = if key = id then none else p.get key :=
  Function.update_apply ..

theorem get_deleteFromSet : (p.deleteFromSet id value).2.get key =
    if key = id then (p.get id).map (·.erase value) else p.get key := by
  unfold deleteFromSet get
  split <;> rename_i known
  · rw [known]
    exact Function.update_apply ..
  · split <;> rename_i same
    · rw [same, known]
      rfl
    · rfl

theorem mem_insert : (p.insert id value).2.Mem key v ↔ p.Mem key v ∨ key = id ∧ v = value := by
  rw [mem_iff_getD, mem_iff_getD, get_insert]
  split <;> rename_i same
  · simp [same, or_comm]
  · simp [same]

theorem mem_delete : (p.delete id).2.Mem key v ↔ p.Mem key v ∧ key ≠ id := by
  rw [mem_iff_getD, mem_iff_getD, get_delete]
  split <;> rename_i same
  · simp [same]
  · simp [same]

theorem mem_deleteFromSet :
    (p.deleteFromSet id value).2.Mem key v ↔ p.Mem key v ∧ ¬(key = id ∧ v = value) := by
  rw [mem_iff_getD, mem_iff_getD, get_deleteFromSet]
  split <;> rename_i same
  · rw [same]
    cases p.get id with
    | none => simp
    | some set => simp [and_comm]
  · simp [same]

theorem deleteFromSet_fst : (p.deleteFromSet key value).1 = true ↔ p.Mem key value := by
  unfold deleteFromSet Mem get
  cases p.index key with
  | none => simp
  | some set => simp

end SetProvider

/-! ## Numbers of attributes -/

/-- The numbers given out so far. `InternalAttribute` has the fields and the equality of an
attribute. -/
structure AttributeEncoder where
  attributeIndex : List (Attribute × ℕ)
  runningIndex : ℕ

namespace AttributeEncoder

def new : AttributeEncoder := ⟨[], 0⟩

def get (e : AttributeEncoder) (attr : Attribute) : Option ℕ :=
  (e.attributeIndex.find? fun entry => entry.1.eq attr).map (·.2)

/-- The number of an attribute, which is a new one if it has none. -/
def insert (e : AttributeEncoder) (attr : Attribute) : ℕ × AttributeEncoder :=
  match e.get attr with
  | some id => (id, e)
  | none => (e.runningIndex, ⟨(attr, e.runningIndex) :: e.attributeIndex, e.runningIndex + 1⟩)

/-- No number stands for two attributes, and those to come are not in use. -/
structure Numbers (e : AttributeEncoder) : Prop where
  injective : ∀ {a b i}, e.get a = some i → e.get b = some i → a.canonical = b.canonical
  bounded : ∀ {a i}, e.get a = some i → i < e.runningIndex

/-- Numbers stay what they are. -/
def Extends (e e' : AttributeEncoder) : Prop := ∀ ⦃a i⦄, e.get a = some i → e'.get a = some i

variable {e : AttributeEncoder} {a b : Attribute} {i : ℕ}

theorem get_congr (same : a.canonical = b.canonical) : e.get a = e.get b := by
  have alike : ∀ entry : Attribute × ℕ, entry.1.eq a = entry.1.eq b := fun entry => by
    rw [Bool.eq_iff_iff, Attribute.eq_iff, Attribute.eq_iff, same]
  unfold get
  simp only [alike]

variable (e)

theorem get_insert (a b : Attribute) : (e.insert a).2.get b =
    if a.canonical = b.canonical then some (e.insert a).1 else e.get b := by
  unfold insert
  split <;> rename_i known
  · split <;> rename_i same
    · rw [← get_congr same, known]
    · rfl
  · unfold get
    rw [List.find?_cons]
    split <;> rename_i same
    · rw [if_pos (Attribute.eq_iff.mp same)]
      rfl
    · rw [← Bool.not_eq_true, Attribute.eq_iff] at same
      rw [if_neg same]

theorem get_insert_self (a : Attribute) :
    (e.insert a).2.get a = some (e.insert a).1 := by
  rw [get_insert, if_pos rfl]

theorem insert_extends (a : Attribute) : e.Extends (e.insert a).2 := by
  intro b i known
  rw [get_insert]
  split <;> rename_i same
  · rw [← get_congr same] at known
    unfold insert
    rw [known]
  · exact known

variable {e}

theorem Numbers.insert (numbers : e.Numbers) (a : Attribute) : (e.insert a).2.Numbers := by
  cases known : e.get a with
  | some i =>
    have same : (e.insert a).2 = e := by
      unfold AttributeEncoder.insert
      rw [known]
    rw [same]
    exact numbers
  | none =>
    have number : (e.insert a).1 = e.runningIndex := by
      unfold AttributeEncoder.insert
      rw [known]
    have next : (e.insert a).2.runningIndex = e.runningIndex + 1 := by
      unfold AttributeEncoder.insert
      rw [known]
    constructor
    · intro b c i first second
      rw [get_insert, number] at first second
      split at first <;> split at second <;> rename_i new same
      · exact new.symm.trans same
      · cases first
        exact absurd (numbers.bounded second) (lt_irrefl _)
      · cases second
        exact absurd (numbers.bounded first) (lt_irrefl _)
      · exact numbers.injective first second
    · intro b i held
      rw [get_insert, number] at held
      rw [next]
      split at held
      · cases held
        exact Nat.lt_succ_self _
      · exact Nat.lt_succ_of_lt (numbers.bounded held)

theorem numbers_new : new.Numbers := ⟨nofun, nofun⟩

end AttributeEncoder

/-! ## The store -/

/-- An `ANNError`, as it is made here. -/
inductive StoreError
  | message (text : String)
  | json (e : JsonConversionError)
  deriving DecidableEq, Repr

structure RoaringAttributeStore (IT : Type) where
  attributeMap : AttributeEncoder
  index : SetProvider IT
  invIndex : SetProvider ℕ

namespace RoaringAttributeStore

variable {IT : Type} [DecidableEq IT] [IntoUsize IT]

def new : RoaringAttributeStore IT := ⟨.new, .new, .new⟩

/-- `deleted && delete_from_set(..)` -/
def retract (id : ℕ) (found : Bool × SetProvider ℕ) (attrId : ℕ) : Bool × SetProvider ℕ :=
  if found.1 then found.2.deleteFromSet attrId id else found

/-- The answer and what is left in the store, also if the call fails. -/
def delete (s : RoaringAttributeStore IT) (vecId : IT) :
    Except StoreError Bool × RoaringAttributeStore IT :=
  match s.index.get vecId with
  | none => (.ok false, s)
  | some existingSet =>
      let (deleted, invIndex) :=
        (existingSet.sort (· ≤ ·)).foldl (retract (intoUsize vecId)) (true, s.invIndex)
      if deleted then
        let (deleted, index) := s.index.delete vecId
        (if deleted then .ok true else .error (.message "Failed to delete id from the index."),
          { s with index, invIndex })
      else (.error (.message "Failed to delete id from the inverted index."), { s with invIndex })

def idExists (s : RoaringAttributeStore IT) (vecId : IT) : Bool := (s.index.get vecId).isSome

/-- The numbers of the attributes a vector had are taken back. -/
def clearInverted (s : RoaringAttributeStore IT) (vecId : IT) : SetProvider ℕ :=
  match s.index.get vecId with
  | none => s.invIndex
  | some set => (set.sort (· ≤ ·)).foldl
      (fun invIndex attrId => (invIndex.deleteFromSet attrId (intoUsize vecId)).2) s.invIndex

/-- Attribute by attribute, the new ones are entered. -/
def enter (vecId : IT) (s : RoaringAttributeStore IT) (attr : Attribute) :
    RoaringAttributeStore IT :=
  let (attrId, attributeMap) := s.attributeMap.insert attr
  { attributeMap
    index := (s.index.insert vecId attrId).2
    invIndex := (s.invIndex.insert attrId (intoUsize vecId)).2 }

def setElement (s : RoaringAttributeStore IT) (vecId : IT) (attributes : List Attribute) :
    Except StoreError Bool × RoaringAttributeStore IT :=
  if attributes = [] then (.error (.message "A vector must have atleast one attribute."), s)
  else
    let s := { s with invIndex := s.clearInverted vecId, index := (s.index.delete vecId).2 }
    (.ok true, attributes.foldl (enter vecId) s)

/-! ## Whole runs -/

inductive Call (IT : Type)
  | setElement (vecId : IT) (attributes : List Attribute)
  | delete (vecId : IT)

def step (s : RoaringAttributeStore IT) : Call IT → RoaringAttributeStore IT
  | .setElement vecId attributes => (s.setElement vecId attributes).2
  | .delete vecId => (s.delete vecId).2

variable (calls : List (Call IT))

def run : RoaringAttributeStore IT := calls.foldl step new

omit [IntoUsize IT] in
/-- The attributes last set, after one more call. -/
def remember (latest : IT → Option (List Attribute)) : Call IT → IT → Option (List Attribute)
  | .setElement vecId attributes =>
      if attributes = [] then latest else Function.update latest vecId (some attributes)
  | .delete vecId => Function.update latest vecId none

omit [IntoUsize IT] in
/-- The attributes last set for each vector, if it has not been deleted since. -/
def latest : IT → Option (List Attribute) :=
  calls.foldl remember fun _ => none

/-- The store holds the numbers of the attributes last set, both ways. -/
structure Holds (s : RoaringAttributeStore IT) (latest : IT → Option (List Attribute)) : Prop where
  numbers : s.attributeMap.Numbers
  present : ∀ id, (s.index.get id).isSome = (latest id).isSome
  known : ∀ id, ∀ a ∈ (latest id).getD [], ∃ i, s.attributeMap.get a = some i
  mem_index : ∀ id i, s.index.Mem id i ↔ ∃ a ∈ (latest id).getD [], s.attributeMap.get a = some i
  mem_invIndex : ∀ i n, s.invIndex.Mem i n ↔ ∃ id, intoUsize id = n ∧ s.index.Mem id i

variable {s : RoaringAttributeStore IT} {latest : IT → Option (List Attribute)}

open SetProvider Function

theorem mem_foldl_deleteFromSet (inv : SetProvider ℕ) (id : ℕ) (l : List ℕ) (i n : ℕ) :
    (l.foldl (fun inv attrId => (inv.deleteFromSet attrId id).2) inv).Mem i n ↔
      inv.Mem i n ∧ ¬(n = id ∧ i ∈ l) := by
  induction l generalizing inv with
  | nil => simp
  | cons attrId l ih =>
    rw [List.foldl_cons, ih, mem_deleteFromSet, List.mem_cons]
    tauto

/-- Where every number is found, the two loops agree. -/
theorem foldl_retract {inv : SetProvider ℕ} {id : ℕ} {l : List ℕ} (nodup : l.Nodup)
    (held : ∀ i ∈ l, inv.Mem i id) : l.foldl (retract id) (true, inv) =
      (true, l.foldl (fun inv attrId => (inv.deleteFromSet attrId id).2) inv) := by
  induction l generalizing inv with
  | nil => rfl
  | cons attrId l ih =>
    obtain ⟨fresh, nodup⟩ := List.nodup_cons.mp nodup
    have found : (inv.deleteFromSet attrId id).1 = true :=
      deleteFromSet_fst.mpr (held attrId List.mem_cons_self)
    have first : retract id (true, inv) attrId = (true, (inv.deleteFromSet attrId id).2) :=
      Prod.ext found rfl
    rw [List.foldl_cons, first]
    refine ih nodup fun i mem => mem_deleteFromSet.mpr
      ⟨held i (List.mem_cons_of_mem _ mem), ?_⟩
    rintro ⟨rfl, -⟩
    exact fresh mem

variable (holds : s.Holds latest)
include holds

variable (vecId : IT)

omit [DecidableEq IT] in
theorem mem_clearInverted (i n : ℕ) :
    (s.clearInverted vecId).Mem i n ↔
      ∃ id, intoUsize id = n ∧ s.index.Mem id i ∧ id ≠ vecId := by
  have all : (s.clearInverted vecId).Mem i n ↔
      s.invIndex.Mem i n ∧ ¬(n = intoUsize vecId ∧ s.index.Mem vecId i) := by
    unfold clearInverted Mem
    cases s.index.get vecId with
    | none => simp
    | some set =>
      refine (mem_foldl_deleteFromSet ..).trans ?_
      simp [Mem]
  rw [all, holds.mem_invIndex]
  constructor
  · rintro ⟨⟨id, rfl, mem⟩, others⟩
    exact ⟨id, rfl, mem, fun same => others (same ▸ ⟨rfl, mem⟩)⟩
  · rintro ⟨id, rfl, mem, other⟩
    exact ⟨⟨id, rfl, mem⟩, fun same => other (IntoUsize.injective same.1)⟩

/-- Both calls begin by taking back what the vector had. -/
theorem Holds.clear :
    Holds { s with invIndex := s.clearInverted vecId, index := (s.index.delete vecId).2 }
      (update latest vecId none) where
  numbers := holds.numbers
  present id := by
    simp only [get_delete, update_apply]
    split
    · rfl
    · exact holds.present id
  known id a member := by
    rw [update_apply] at member
    split at member
    · cases member
    · exact holds.known id a member
  mem_index id i := by
    rw [mem_delete, holds.mem_index, update_apply]
    split <;> rename_i same <;> simp [same]
  mem_invIndex i n := by
    rw [mem_clearInverted holds]
    simp only [mem_delete]

theorem delete_eq :
    (s.delete vecId).1 = .ok (latest vecId).isSome ∧
      ((s.delete vecId).2 = { s with
          invIndex := s.clearInverted vecId, index := (s.index.delete vecId).2 } ∨
        (s.delete vecId).2 = s ∧ latest vecId = none) := by
  have present := holds.present vecId
  unfold delete clearInverted
  cases known : s.index.get vecId with
  | none =>
    rw [known] at present
    exact ⟨congrArg _ present, .inr ⟨rfl, by simpa using present.symm⟩⟩
  | some existing =>
    rw [known] at present
    have held : ∀ i ∈ existing.sort (· ≤ ·), s.invIndex.Mem i (intoUsize vecId) := fun i mem =>
      (holds.mem_invIndex i _).mpr ⟨vecId, rfl, existing, known, (Finset.mem_sort _).mp mem⟩
    have deleted : (s.index.delete vecId).1 = true := by
      exact congrArg Option.isSome known
    simp only [foldl_retract (Finset.sort_nodup ..) held, if_true, deleted]
    exact ⟨congrArg _ present, .inl trivial⟩

theorem Holds.enter (a : Attribute) :
    (s.enter vecId a).Holds
      (update latest vecId (some ((latest vecId).getD [] ++ [a]))) where
  numbers := holds.numbers.insert a
  present id := by
    simp only [RoaringAttributeStore.enter, get_insert, update_apply]
    split
    · rfl
    · exact holds.present id
  known id b member := by
    have grows := s.attributeMap.insert_extends a
    have old : ∀ id, ∀ b ∈ (latest id).getD [], ∃ i, (s.attributeMap.insert a).2.get b = some i :=
      fun id b member => (holds.known id b member).imp fun i known => grows known
    rw [update_apply] at member
    split at member
    · rcases List.mem_append.mp member with before | new
      · exact old vecId b before
      · obtain rfl := List.mem_singleton.mp new
        exact ⟨_, s.attributeMap.get_insert_self b⟩
    · exact old id b member
  mem_index id i := by
    have entered : (s.enter vecId a).index.Mem id i ↔
        s.index.Mem id i ∨ id = vecId ∧ i = (s.attributeMap.insert a).1 := mem_insert
    have old : (∃ b ∈ (latest id).getD [], (s.attributeMap.insert a).2.get b = some i) ↔
        ∃ b ∈ (latest id).getD [], s.attributeMap.get b = some i := by
      refine exists_congr fun b => and_congr_right fun member => ?_
      obtain ⟨j, known⟩ := holds.known id b member
      rw [known, s.attributeMap.insert_extends a known]
    rw [entered, holds.mem_index, update_apply, ← old]
    split <;> rename_i same
    · subst same
      simp only [true_and, Option.getD_some, List.mem_append, List.mem_singleton, or_and_right,
        exists_or, exists_eq_left]
      refine or_congr_right ?_
      change _ ↔ (s.attributeMap.insert a).2.get a = some i
      rw [s.attributeMap.get_insert_self, Option.some.injEq, eq_comm]
    · simp only [same, false_and, or_false]
      rfl
  mem_invIndex i n := by
    have inverted : (s.enter vecId a).invIndex.Mem i n ↔
        s.invIndex.Mem i n ∨ i = (s.attributeMap.insert a).1 ∧ n = intoUsize vecId :=
      mem_insert
    have entered : ∀ id, (s.enter vecId a).index.Mem id i ↔
        s.index.Mem id i ∨ id = vecId ∧ i = (s.attributeMap.insert a).1 := fun id =>
      mem_insert
    simp only [inverted, entered, holds.mem_invIndex]
    constructor
    · rintro (⟨id, same, member⟩ | ⟨number, rfl⟩)
      · exact ⟨id, same, .inl member⟩
      · exact ⟨vecId, rfl, .inr ⟨rfl, number⟩⟩
    · rintro ⟨id, rfl, member | ⟨rfl, number⟩⟩
      · exact .inl ⟨id, rfl, member⟩
      · exact .inr ⟨number, rfl⟩

theorem Holds.foldl_enter {attributes : List Attribute}
    (some : attributes ≠ []) : (attributes.foldl (RoaringAttributeStore.enter vecId) s).Holds
      (update latest vecId (.some ((latest vecId).getD [] ++ attributes))) := by
  induction attributes generalizing s latest with
  | nil => exact absurd rfl some
  | cons a attributes ih =>
    have entered := holds.enter vecId a
    rcases eq_or_ne attributes [] with rfl | more
    · exact entered
    · have all := ih entered more
      rwa [update_idem, update_self, Option.getD_some, List.append_assoc] at all

theorem Holds.step (call : Call IT) :
    (s.step call).Holds (remember latest call) := by
  cases call with
  | setElement vecId attributes =>
    rw [RoaringAttributeStore.step, setElement, remember]
    split <;> rename_i none
    · exact holds
    · have all := (holds.clear vecId).foldl_enter vecId none
      rwa [update_idem, update_self] at all
  | delete vecId =>
    rw [RoaringAttributeStore.step, remember]
    rcases (delete_eq holds vecId).2 with cleared | ⟨same, none⟩
    · rw [cleared]
      exact holds.clear vecId
    · rw [same, ← none, update_eq_self]
      exact holds

omit holds in
omit [DecidableEq IT] in
theorem holds_new : (new : RoaringAttributeStore IT).Holds fun _ => none where
  numbers := AttributeEncoder.numbers_new
  present _ := rfl
  known _ _ := nofun
  mem_index _ _ := iff_of_false not_mem_new (by simp)
  mem_invIndex _ _ := by
    refine iff_of_false not_mem_new ?_
    rintro ⟨id, -, mem⟩
    exact not_mem_new mem

theorem step_extends (call : Call IT) :
    s.attributeMap.Extends (s.step call).attributeMap := by
  have entering : ∀ (vecId : IT) (attributes : List Attribute) (s : RoaringAttributeStore IT),
      s.attributeMap.Extends (attributes.foldl (enter vecId) s).attributeMap := by
    intro vecId attributes
    induction attributes with
    | nil => exact fun _ _ _ known => known
    | cons a attributes ih =>
      exact fun s _ _ known => ih (s.enter vecId a) (s.attributeMap.insert_extends a known)
  cases call with
  | setElement vecId attributes =>
    rw [step, setElement]
    split
    · exact fun _ _ known => known
    · exact entering vecId attributes
        { s with invIndex := s.clearInverted vecId, index := (s.index.delete vecId).2 }
  | delete vecId =>
    rw [step]
    rcases (delete_eq holds vecId).2 with cleared | ⟨same, -⟩
    · rw [cleared]
      exact fun _ _ known => known
    · rw [same]
      exact fun _ _ known => known

omit holds

theorem holds_run :
    (run calls).Holds (RoaringAttributeStore.latest calls) := by
  induction calls using List.reverseRecOn with
  | nil => exact holds_new
  | append_singleton calls call ih =>
    rw [run, RoaringAttributeStore.latest, List.foldl_append, List.foldl_append]
    exact ih.step call

theorem run_extends (before after : List (Call IT)) :
    (run before).attributeMap.Extends (run (before ++ after)).attributeMap := by
  induction after using List.reverseRecOn with
  | nil =>
    rw [List.append_nil]
    exact fun _ _ known => known
  | append_singleton after call ih =>
    have next : run (before ++ (after ++ [call])) = (run (before ++ after)).step call := by
      rw [run, ← List.append_assoc, List.foldl_append]
      rfl
    rw [next]
    exact fun _ _ known => step_extends (holds_run _) call (ih known)

end RoaringAttributeStore

end DiskAnn.LabelFilter
