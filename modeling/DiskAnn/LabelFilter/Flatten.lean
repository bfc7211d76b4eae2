import DiskAnn.LabelFilter.JsonPointer

/-! # Flattening a document

`flatten_utils.rs` walks a JSON value with one buffer for the path, and panics at a null. Member names are
written into the path as they are.
-/

namespace DiskAnn.LabelFilter

open List

variable {tokens : List String} {leaf : Value} {values : List Value} {token : String}

/-! ## The walk -/

/-- A buffer and the length it is cut to at the end, in characters. -/
structure StringStack where
  string : String
  kept : ℕ

namespace StringStack

def new (string : String) : StringStack := ⟨string, string.length⟩

def push (string value separator : String) : StringStack := ⟨string ++ (separator ++ value), string.length⟩

/-- `truncate` a buffer. -/
def truncate (string : String) (length : ℕ) : String := String.ofList (string.toList.take length)

end StringStack

structure FlattenConfig where
  separator : String
  rootPrefix : String

/-- The separator of pointers. -/
def FlattenConfig.default : FlattenConfig := ⟨"/", ""⟩

abbrev AttributesVec := List (String × AttributeValue)

variable (value : Value)

/-- A leaf is converted, or the walk panics. -/
def pushLeaf (path : String) (out : AttributesVec) : Option AttributesVec :=
  match AttributeValue.tryFrom value with
  | .ok rv => some (out ++ [(path, rv)])
  | .error _ => none

mutual

/-- The buffer after the stack is dropped, and what was found; `none` is a panic. -/
def flattenRecursive (separator : String) : Value → StringStack → AttributesVec →
    Option (String × AttributesVec)
  | .object members, stack, out => do
      let (string, out) ← flattenMembers separator members stack.string out
      some (StringStack.truncate string stack.kept, out)
  | .array values, stack, out => do
      let (string, out) ← flattenItems separator 0 values stack.string out
      some (StringStack.truncate string stack.kept, out)
  | value, stack, out => do
      let out ← pushLeaf value stack.string out
      some (StringStack.truncate stack.string stack.kept, out)

def flattenMembers (separator : String) : List (String × Value) → String → AttributesVec →
    Option (String × AttributesVec)
  | [], string, out => some (string, out)
  | (name, value) :: members, string, out => do
      let (string, out) ← flattenRecursive separator value (.push string name separator) out
      flattenMembers separator members string out

/-- The items of an array from an index on. -/
def flattenItems (separator : String) : ℕ → List Value → String → AttributesVec →
    Option (String × AttributesVec)
  | _, [], string, out => some (string, out)
  | i, value :: values, string, out => do
      let (string, out) ← flattenRecursive separator value (.push string (i.repr) separator) out
      flattenItems separator (i + 1) values string out

end

def flattenJsonPointersWithConfig (config : FlattenConfig) : Option AttributesVec :=
  (flattenRecursive config.separator value (.new config.rootPrefix) []).map (·.2)

def flattenJsonPointers : Option AttributesVec :=
  flattenJsonPointersWithConfig value .default

/-! ## Leaves -/

mutual

/-- The leaves that are not null, with the tokens on the way to them. -/
def leaves : Value → List (List String × Value)
  | .null => []
  | .object members => leavesMembers members
  | .array values => leavesItems 0 values
  | value => [([], value)]

def leavesMembers : List (String × Value) → List (List String × Value)
  | [] => []
  | (name, value) :: members => (leaves value).map (Prod.map (name :: ·) id) ++ leavesMembers members

def leavesItems : ℕ → List Value → List (List String × Value)
  | _, [] => []
  | i, value :: values => (leaves value).map (Prod.map (i.repr :: ·) id) ++ leavesItems (i + 1) values

end

mutual

def hasNull : Value → Bool
  | .null => true
  | .object members => hasNullMembers members
  | .array values => hasNullItems values
  | _ => false

def hasNullMembers : List (String × Value) → Bool
  | [] => false
  | (_, value) :: members => hasNull value || hasNullMembers members

def hasNullItems : List Value → Bool
  | [] => false
  | value :: values => hasNull value || hasNullItems values

end

/-- The value under a token. An index has no leading zero. -/
def child : Value → String → Option Value
  | .object members, token => Value.get members token
  | .array values, token => ((range values.length).find? (Nat.repr · == token)).bind (values[·]?)
  | _, _ => none

/-- The value that tokens point to. -/
def locate : List String → Value → Option Value
  | [], value => some value
  | token :: tokens, value => (child value token).bind (locate tokens)

/-- A primitive that is not null. -/
def IsLeaf : Value → Prop
  | .bool _ | .number _ | .string _ => True
  | _ => False

/-! ## What the walk finds -/

theorem StringStack.truncate_push (string value separator : String) :
    truncate (push string value separator).string (push string value separator).kept = string := by
  rw [truncate, push, String.toList_append, ← String.length_toList, take_left, String.ofList_toList]

/-- The attribute of a leaf. -/
def converted : AttributeValue :=
  match AttributeValue.tryFrom value with
  | .ok rv => rv
  | .error _ => .empty

theorem tryFrom_of_isLeaf {value : Value} (leaf : IsLeaf value) :
    AttributeValue.tryFrom value = .ok (converted value) := by
  cases value with
  | bool v => rfl
  | number n =>
    obtain ⟨f, float⟩ : ∃ f, n.asF64 = some f := by cases n <;> exact ⟨_, rfl⟩
    cases integer : n.asI64 <;> simp [converted, AttributeValue.tryFrom, integer, float]
  | string s => rfl
  | null | array | object => cases leaf

/-- The entries for leaves below a path. -/
def entries (separator path : String) (found : List (List String × Value)) : AttributesVec :=
  found.map fun leaf => (path ++ joined separator leaf.1, converted leaf.2)

theorem entries_append (separator path : String) (a b : List (List String × Value)) :
    entries separator path (a ++ b) = entries separator path a ++ entries separator path b :=
  map_append

theorem entries_below (separator path token : String) (found : List (List String × Value)) :
    entries separator path (found.map (Prod.map (token :: ·) id)) =
      entries separator (path ++ (separator ++ token)) found := by
  simp [entries, joined, String.append_assoc, Function.comp_def]

/-- What a walk ends with, unless it panics. -/
def walked (null : Bool) (string : String) (out : AttributesVec) : Option (String × AttributesVec) :=
  if null then none else some (string, out)

theorem walked_bind (null rest : Bool) (string : String) (out out' : AttributesVec)
    {next : String × AttributesVec → Option (String × AttributesVec)}
    (step : next (string, out) = walked rest string out') :
    walked null string out >>= next = walked (null || rest) string out' := by
  cases null with
  | true => rfl
  | false => exact step

section Walk

variable {separator : String}

/-- What is shown of the values inside. -/
def Walks (separator : String) (value : Value) : Prop :=
  ∀ stack out, flattenRecursive separator value stack out =
    walked (hasNull value) (StringStack.truncate stack.string stack.kept)
      (out ++ entries separator stack.string (leaves value))

theorem flattenMembers_eq {members : List (String × Value)}
    (each : ∀ mem ∈ members, Walks separator mem.2) (string : String) (out : AttributesVec) :
    flattenMembers separator members string out =
      walked (hasNullMembers members) string (out ++ entries separator string (leavesMembers members)) := by
  induction members generalizing out with
  | nil => simp [flattenMembers, hasNullMembers, leavesMembers, walked, entries]
  | cons mem members ih =>
    obtain ⟨name, value⟩ := mem
    have rest := ih fun other listed => each other (mem_cons_of_mem _ listed)
    rw [flattenMembers, each _ mem_cons_self, StringStack.truncate_push, hasNullMembers, leavesMembers,
      entries_append, entries_below, ← append_assoc]
    exact walked_bind _ _ _ _ _ (rest _)

theorem flattenItems_eq {values : List Value} (each : ∀ value ∈ values, Walks separator value) (i : ℕ)
    (string : String) (out : AttributesVec) :
    flattenItems separator i values string out =
      walked (hasNullItems values) string (out ++ entries separator string (leavesItems i values)) := by
  induction values generalizing i out with
  | nil => simp [flattenItems, hasNullItems, leavesItems, walked, entries]
  | cons value values ih =>
    have rest := ih fun other listed => each other (mem_cons_of_mem _ listed)
    rw [flattenItems, each _ mem_cons_self, StringStack.truncate_push, hasNullItems, leavesItems,
      entries_append, entries_below, ← append_assoc]
    exact walked_bind _ _ _ _ _ (rest _ _)

theorem walks_leaf {value : Value} (leaf : IsLeaf value) : Walks separator value := by
  intro stack out
  have pushed : pushLeaf value stack.string out = some (out ++ [(stack.string, converted value)]) := by
    rw [pushLeaf, tryFrom_of_isLeaf leaf]
  cases value with
  | bool | number | string =>
    rw [flattenRecursive, pushed]
    · simp [walked, hasNull, leaves, entries, joined]
    · simp
    · simp
  | null | array | object => cases leaf

theorem walks {value : Value} (proper : value.WellFormed) : Walks separator value := by
  induction proper with
  | null => exact fun _ _ => rfl
  | bool v => exact walks_leaf trivial
  | number n => exact walks_leaf trivial
  | string s => exact walks_leaf trivial
  | array parts ih =>
    intro stack out
    rw [flattenRecursive, flattenItems_eq ih, hasNull, leaves]
    cases hasNullItems _ <;> rfl
  | object distinct parts ih =>
    intro stack out
    rw [flattenRecursive, flattenMembers_eq ih, hasNull, leaves]
    cases hasNullMembers _ <;> rfl

end Walk

/-- The walk yields the leaves in their order, if there is no null. -/
theorem flattenJsonPointers_eq {value : Value} (proper : value.WellFormed) :
    flattenJsonPointers value =
      if hasNull value then none
      else some ((leaves value).map fun leaf => (joined "/" leaf.1, converted leaf.2)) := by
  rw [flattenJsonPointers, flattenJsonPointersWithConfig, walks proper, walked]
  split
  · rfl
  · simp [entries, FlattenConfig.default, StringStack.new]

/-! ## What the leaves are -/

theorem mem_leavesMembers {members : List (String × Value)} :
    (tokens, leaf) ∈ leavesMembers members ↔
      ∃ mem ∈ members, ∃ rest, tokens = mem.1 :: rest ∧ (rest, leaf) ∈ leaves mem.2 := by
  induction members with
  | nil => simp [leavesMembers]
  | cons mem members ih =>
    obtain ⟨name, value⟩ := mem
    rw [leavesMembers, mem_append, ih, exists_mem_cons_iff]
    refine or_congr_left ?_
    simp only [mem_map, Prod.map, id, Prod.mk.injEq, Prod.exists]
    constructor
    · rintro ⟨rest, found, mem, rfl, rfl⟩
      exact ⟨rest, rfl, mem⟩
    · rintro ⟨rest, rfl, mem⟩
      exact ⟨rest, leaf, mem, rfl, rfl⟩

theorem mem_leavesItems {i : ℕ} :
    (tokens, leaf) ∈ leavesItems i values ↔
      ∃ j value, values[j]? = some value ∧ ∃ rest, tokens = Nat.repr (i + j) :: rest ∧
        (rest, leaf) ∈ leaves value := by
  induction values generalizing i with
  | nil => simp [leavesItems]
  | cons value values ih =>
    rw [leavesItems, mem_append, ih, mem_map]
    constructor
    · rintro (⟨⟨rest, found⟩, mem, same⟩ | ⟨j, other, held, rest, rfl, mem⟩)
      · obtain ⟨rfl, rfl⟩ := Prod.mk.inj same
        exact ⟨0, value, rfl, rest, rfl, mem⟩
      · exact ⟨j + 1, other, held, rest, by rw [Nat.add_right_comm, Nat.add_assoc], mem⟩
    · rintro ⟨_ | j, other, held, rest, rfl, mem⟩
      · cases held
        exact .inl ⟨(rest, leaf), mem, rfl⟩
      · exact .inr ⟨j, other, held, rest, by rw [Nat.add_right_comm, Nat.add_assoc], mem⟩

theorem find_range_repr {n j : ℕ} (inside : j < n) :
    (range n).find? (Nat.repr · == j.repr) = some j := by
  cases found : (range n).find? (Nat.repr · == j.repr) with
  | none => simpa using find?_eq_none.mp found j (mem_range.mpr inside)
  | some i =>
    have same : i.repr = j.repr := by simpa using find?_some found
    rw [Nat.repr_inj.mp same]

theorem child_array_iff {inner : Value} :
    child (.array values) token = some inner ↔
      ∃ j, values[j]? = some inner ∧ token = Nat.repr j := by
  rw [child, Option.bind_eq_some_iff]
  constructor
  · rintro ⟨j, found, held⟩
    have same : Nat.repr j = token := by simpa using find?_some found
    exact ⟨j, held, same.symm⟩
  · rintro ⟨j, held, rfl⟩
    obtain ⟨inside, -⟩ := List.getElem?_eq_some_iff.mp held
    exact ⟨j, find_range_repr inside, held⟩

theorem locate_cons {value : Value} :
    locate (token :: tokens) value = some leaf ↔
      ∃ inner, child value token = some inner ∧ locate tokens inner = some leaf :=
  Option.bind_eq_some_iff

/-- The leaves are what tokens can point to. -/
theorem mem_leaves_iff {value : Value} (proper : value.WellFormed) :
    (tokens, leaf) ∈ leaves value ↔ locate tokens value = some leaf ∧ IsLeaf leaf := by
  induction tokens generalizing value with
  | nil =>
    rw [locate, Option.some.injEq]
    cases value with
    | null =>
      rw [leaves]
      exact iff_of_false not_mem_nil (by rintro ⟨rfl, isLeaf⟩; exact isLeaf)
    | bool v | number n | string s =>
      simp only [leaves, mem_singleton, Prod.mk.injEq, true_and]
      exact ⟨by rintro rfl; exact ⟨rfl, trivial⟩, fun found => found.1.symm⟩
    | array values =>
      rw [leaves, mem_leavesItems]
      exact iff_of_false (by simp) (by rintro ⟨rfl, isLeaf⟩; exact isLeaf)
    | object members =>
      rw [leaves, mem_leavesMembers]
      exact iff_of_false (by simp) (by rintro ⟨rfl, isLeaf⟩; exact isLeaf)
  | cons token tokens ih =>
    rw [locate_cons]
    cases proper with
    | object distinct parts =>
      rw [leaves, mem_leavesMembers]
      constructor
      · rintro ⟨mem, listed, rest, same, found⟩
        obtain ⟨rfl, rfl⟩ := List.cons.inj same
        obtain ⟨located, isLeaf⟩ := (ih (parts mem listed)).mp found
        exact ⟨⟨mem.2, (Value.get_eq_some_iff distinct).mpr listed, located⟩, isLeaf⟩
      · rintro ⟨⟨inner, held, located⟩, isLeaf⟩
        have listed := Value.mem_of_get held
        exact ⟨_, listed, tokens, rfl, (ih (parts _ listed)).mpr ⟨located, isLeaf⟩⟩
    | array parts =>
      rw [leaves, mem_leavesItems]
      constructor
      · rintro ⟨j, inner, held, rest, same, found⟩
        obtain ⟨rfl, rfl⟩ := List.cons.inj same
        obtain ⟨located, isLeaf⟩ := (ih (parts inner (mem_of_getElem? held))).mp found
        exact ⟨⟨inner, child_array_iff.mpr ⟨j, held, by rw [Nat.zero_add]⟩, located⟩, isLeaf⟩
      · rintro ⟨⟨inner, held, located⟩, isLeaf⟩
        obtain ⟨j, item, rfl⟩ := child_array_iff.mp held
        exact ⟨j, inner, item, tokens, by rw [Nat.zero_add],
          (ih (parts inner (mem_of_getElem? item))).mpr ⟨located, isLeaf⟩⟩
    | _ => simp [leaves, child]

theorem nodup_below {found rest : List (List String × Value)} (first : (found.map (·.1)).Nodup)
    (second : (rest.map (·.1)).Nodup) (apart : ∀ leaf ∈ rest, leaf.1.head? ≠ some token) :
    ((found.map (Prod.map (token :: ·) id) ++ rest).map (·.1)).Nodup := by
  have below : (found.map (Prod.map (token :: ·) id)).map (·.1) = (found.map (·.1)).map (token :: ·) := by
    rw [map_map, map_map]
    rfl
  rw [map_append, below, nodup_append]
  refine ⟨first.map cons_injective, second, fun a mem b other same => ?_⟩
  obtain ⟨tokens, -, rfl⟩ := mem_map.mp mem
  obtain ⟨leaf, listed, rfl⟩ := mem_map.mp other
  exact apart leaf listed (by rw [← same, head?_cons])

theorem nodup_leavesMembers {members : List (String × Value)} (distinct : (members.map (·.1)).Nodup)
    (each : ∀ mem ∈ members, ((leaves mem.2).map (·.1)).Nodup) :
    ((leavesMembers members).map (·.1)).Nodup := by
  induction members with
  | nil => exact nodup_nil
  | cons mem members ih =>
    obtain ⟨new, others⟩ := nodup_cons.mp distinct
    refine nodup_below (each mem mem_cons_self)
      (ih others fun other listed => each other (mem_cons_of_mem _ listed)) fun leaf listed same => ?_
    obtain ⟨other, otherListed, rest, tokens, -⟩ := mem_leavesMembers.mp listed
    rw [tokens, head?_cons, Option.some.injEq] at same
    exact new (mem_map.mpr ⟨other, otherListed, same⟩)

theorem nodup_leavesItems (each : ∀ value ∈ values, ((leaves value).map (·.1)).Nodup) (i : ℕ) :
    ((leavesItems i values).map (·.1)).Nodup := by
  induction values generalizing i with
  | nil => exact nodup_nil
  | cons value values ih =>
    refine nodup_below (each value mem_cons_self)
      (ih (fun other listed => each other (mem_cons_of_mem _ listed)) (i + 1))
      fun leaf listed same => ?_
    obtain ⟨j, other, -, rest, tokens, -⟩ := mem_leavesItems.mp listed
    rw [tokens, head?_cons, Option.some.injEq] at same
    have index := Nat.repr_inj.mp same
    omega

theorem nodup_leaves {value : Value} (proper : value.WellFormed) :
    ((leaves value).map (·.1)).Nodup := by
  induction proper with
  | array parts ih =>
    rw [leaves]
    exact nodup_leavesItems ih 0
  | object distinct parts ih =>
    rw [leaves]
    exact nodup_leavesMembers distinct ih
  | null => simp [leaves]
  | bool v | number n | string s => simp [leaves]

/-! ## Pointers -/

/-- One entry for each leaf, under a pointer to it, and all pointers distinct. -/
structure Flattened (value : Value) (entries : AttributesVec) : Prop where
  distinct : (entries.map (·.1)).Nodup
  resolves : List.Forall₂ (fun entry leaf => parsePointer entry.1 = some leaf.1 ∧
    locate leaf.1 value = some leaf.2 ∧ AttributeValue.tryFrom leaf.2 = .ok entry.2) entries (leaves value)
  covers : ∀ tokens leaf, locate tokens value = some leaf → IsLeaf leaf →
    ∃ entry ∈ entries, parsePointer entry.1 = some tokens

/-- Flattening works if there is no null, and no name on the way to a leaf would have to be escaped. -/
theorem flattenJsonPointers_iff {value : Value} (proper : value.WellFormed) :
    (∃ entries, flattenJsonPointers value = some entries ∧ Flattened value entries) ↔
      hasNull value = false ∧
        ∀ leaf ∈ leaves value, ∀ token ∈ leaf.1, '/' ∉ token.toList ∧ '~' ∉ token.toList := by
  rw [flattenJsonPointers_eq proper]
  cases hasNull value with
  | true => simp
  | false =>
    simp only [Bool.false_eq_true, if_false, Option.some.injEq, exists_eq_left', true_and]
    constructor
    · intro flattened leaf listed
      rw [← parsePointer_joined_iff]
      have resolves := flattened.resolves
      rw [forall₂_map_left_iff, forall₂_same] at resolves
      exact (resolves leaf listed).1
    · intro plain
      have read : ∀ leaf ∈ leaves value, parsePointer (joined "/" leaf.1) = some leaf.1 :=
        fun leaf listed => (parsePointer_joined_iff _).mpr (plain leaf listed)
      refine ⟨?_, ?_, fun tokens leaf located isLeaf => ?_⟩
      · -- reading a pointer back gives its route, so equal pointers have equal routes
        apply List.Nodup.of_map parsePointer
        have routes := (nodup_leaves proper).map (Option.some_injective (List String))
        rw [map_map] at routes ⊢
        rw [map_map]
        exact map_congr_left read ▸ routes
      · rw [forall₂_map_left_iff, forall₂_same]
        intro leaf listed
        obtain ⟨located, isLeaf⟩ := (mem_leaves_iff proper).mp listed
        exact ⟨read leaf listed, located, tryFrom_of_isLeaf isLeaf⟩
      · have listed := (mem_leaves_iff proper).mpr ⟨located, isLeaf⟩
        exact ⟨_, mem_map_of_mem listed, read _ listed⟩

theorem flattenJsonPointers_nested :
    ∃ entries, flattenJsonPointers (.object [("a", .array [.bool true])]) = some entries ∧
      Flattened (.object [("a", .array [.bool true])]) entries := by
  apply (flattenJsonPointers_iff (.object (by decide) ?_)).mpr
  · decide +kernel
  · intro member listed
    obtain rfl := mem_singleton.mp listed
    apply Value.WellFormed.array
    intro item held
    obtain rfl := mem_singleton.mp held
    exact .bool true

/-- A null member stops the conversion, and the call panics. -/
theorem flattenJsonPointers_null : flattenJsonPointers (.object [("a", .null)]) = none := by
  decide +kernel

/-- The member `a/b` is listed under the pointer of a member `b` of `a`. -/
example : flattenJsonPointers (.object [("a/b", .bool true)]) = some [("/a/b", .bool true)] := by
  decide +kernel

end DiskAnn.LabelFilter
