import DiskAnn.LabelFilter.Attribute

/-! # JSON values

The accessors and the equality of serde_json. The names of an object's members differ.
-/

namespace DiskAnn.LabelFilter

/-- The equality of `PartialEq`: an integer is no float. -/
def Number.eq : Number → Number → Bool
  | posInt m, posInt n => m == n
  | negInt m, negInt n => m == n
  | float x, float y => x.eq y
  | _, _ => false

namespace Value

/-- `as_f64` -/
def asF64 : Value → Option F64
  | number n => n.asF64
  | _ => none

/-- `as_array` -/
def asArray : Value → Option (List Value)
  | array values => some values
  | _ => none

/-- `get` of an object. -/
def get (members : List (String × Value)) (name : String) : Option Value := members.lookup name

theorem mem_of_get {members : List (String × Value)} {name : String} {value : Value}
    (got : get members name = some value) : (name, value) ∈ members := by
  obtain ⟨before, after, rfl, -⟩ := List.lookup_eq_some_iff.mp got
  simp

theorem get_eq_some_iff {members : List (String × Value)} (distinct : (members.map (·.1)).Nodup)
    {name : String} {value : Value} : get members name = some value ↔ (name, value) ∈ members := by
  refine ⟨mem_of_get, fun mem => ?_⟩
  cases got : get members name with
  | none =>
    have absent := List.lookup_eq_none_iff.mp got _ mem
    simp at absent
  | some other =>
    have same := List.inj_on_of_nodup_map distinct (mem_of_get got) mem rfl
    exact congrArg some (Prod.mk.inj same).2

mutual

/-- The equality of `PartialEq`. -/
def eq : Value → Value → Bool
  | null, null => true
  | bool v, bool w => v == w
  | number m, number n => m.eq n
  | string s, string t => s == t
  | array values, array others => eqAll values others
  | object members, object others => eqMembers members others
  | _, _ => false

def eqAll : List Value → List Value → Bool
  | [], [] => true
  | v :: values, w :: others => eq v w && eqAll values others
  | _, _ => false

def eqMembers : List (String × Value) → List (String × Value) → Bool
  | [], [] => true
  | (name, v) :: members, (other, w) :: others => name == other && eq v w && eqMembers members others
  | _, _ => false

end

/-- A value as a map holds it. -/
inductive WellFormed : Value → Prop
  | null : WellFormed null
  | bool (v : Bool) : WellFormed (bool v)
  | number (n : Number) : WellFormed (number n)
  | string (s : String) : WellFormed (string s)
  | array {values : List Value} (parts : ∀ value ∈ values, WellFormed value) :
      WellFormed (array values)
  | object {members : List (String × Value)} (distinct : (members.map (·.1)).Nodup)
      (parts : ∀ member ∈ members, WellFormed member.2) : WellFormed (object members)

end Value

end DiskAnn.LabelFilter
