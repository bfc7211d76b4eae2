import DiskAnn.Data.Fallible
import DiskAnn.Data.List
import DiskAnn.LabelFilter.QueryParser

/-! # What a filter says

A filter says that the conditions of all its members hold. The parser reads an array of `$and`, then one
of `$or`, then `$not`, and leaves the other members of the object unread; of an object with fields it
reads those whose value is an object.
-/

namespace DiskAnn.LabelFilter

open List Fallible Value

variable {values : List Value} {exprs : List ASTExpr} {ast : ASTExpr} {levels : ℕ}
  {members : List (String × Value)} {name : String}

/-! ## Meaning -/

/-- The condition of an operator on a field. -/
def conditionMeans (label : Value) (field : String) (cond : String × Value) : Bool :=
  match parseOp cond.1 cond.2 with
  | .ok op => evalCompare label field op
  | .error _ => false

mutual

def means (label : Value) : Value → Bool
  | .object members => membersMean label members
  | _ => false

def membersMean (label : Value) : List (String × Value) → Bool
  | [] => true
  | (name, value) :: members => memberMeans label name value && membersMean label members

/-- The condition of a member. A bare value is to be equal. -/
def memberMeans (label : Value) (name : String) : Value → Bool
  | .object members =>
      if name = "$not" then !membersMean label members
      else members.all (conditionMeans label name)
  | .array values =>
      if name = "$and" then allMean label values
      else if name = "$or" then anyMean label values
      else evalCompare label name (.eq (.array values))
  | value => evalCompare label name (.eq value)

def allMean (label : Value) : List Value → Bool
  | [] => true
  | value :: values => means label value && allMean label values

def anyMean (label : Value) : List Value → Bool
  | [] => false
  | value :: values => means label value || anyMean label values

end

/-- A filter that is an operand of a logical operator of an object. -/
inductive Operand (members : List (String × Value)) : Value → Prop
  | and {values : List Value} {value : Value} (member : ("$and", .array values) ∈ members)
      (listed : value ∈ values) : Operand members value
  | or {values : List Value} {value : Value} (member : ("$or", .array values) ∈ members)
      (listed : value ∈ values) : Operand members value
  | not {value : Value} (member : ("$not", value) ∈ members) : Operand members value

/-- A filter that is nested in another one, and how deep. -/
inductive Nested : ℕ → Value → Value → Prop
  | self (filter : Value) : Nested 0 filter filter
  | operand {k : ℕ} {members : List (String × Value)} {value sub : Value}
      (part : Operand members value) (nested : Nested k value sub) : Nested (k + 1) (.object members) sub

/-- An object without the member of a name. -/
def without (members : List (String × Value)) (name : String) : Value :=
  .object (members.filter (·.1 ≠ name))

/-- What an accepted filter is to be: it has the meaning of all members, of no object a member can be
left out without notice, and none is nested too deep. -/
structure Faithful (filter : Value) (ast : ASTExpr) : Prop where
  meaning : ∀ label, evalQueryExpr label ast = means label filter
  reads : ∀ k members, Nested k filter (.object members) → ∀ member ∈ members,
    parseQueryFilterWithDepth (allowedDepthLimit + 1 - k) (without members member.1) ≠
      parseQueryFilterWithDepth (allowedDepthLimit + 1 - k) (.object members)
  shallow : ∀ k sub, Nested k filter sub → k ≤ allowedDepthLimit

/-- Every object has one logical operator or only fields with conditions. -/
inductive Complete : Value → Prop
  | and {values : List Value} (parts : ∀ value ∈ values, Complete value) :
      Complete (.object [("$and", .array values)])
  | or {values : List Value} (parts : ∀ value ∈ values, Complete value) :
      Complete (.object [("$or", .array values)])
  | not {value : Value} (part : Complete value) : Complete (.object [("$not", value)])
  | fields {members : List (String × Value)}
      (conditions : ∀ member ∈ members, startsWithDollar member.1 = false ∧
        ∃ conds, member.2 = .object conds ∧ conds ≠ []) : Complete (.object members)

/-! ## What the parser does -/

/-- No logical operator is read. -/
structure NoOperator (members : List (String × Value)) : Prop where
  and : (Value.get members "$and").bind Value.asArray = none
  or : (Value.get members "$or").bind Value.asArray = none
  not : Value.get members "$not" = none
  dollar : ∀ member ∈ members, startsWithDollar member.1 = false

/-- What an accepted filter is made of. -/
inductive Parsed (levels : ℕ) (members : List (String × Value)) : ASTExpr → Prop
  | and {values : List Value} {exprs : List ASTExpr} (array : Value.get members "$and" = some (.array values))
      (parts : List.Forall₂ (fun value expr => parseQueryFilterWithDepth levels value = .ok expr) values
        exprs) : Parsed levels members (.and exprs)
  | or {values : List Value} {exprs : List ASTExpr}
      (first : (Value.get members "$and").bind Value.asArray = none)
      (array : Value.get members "$or" = some (.array values))
      (parts : List.Forall₂ (fun value expr => parseQueryFilterWithDepth levels value = .ok expr) values
        exprs) : Parsed levels members (.or exprs)
  | not {value : Value} {expr : ASTExpr} (first : (Value.get members "$and").bind Value.asArray = none)
      (second : (Value.get members "$or").bind Value.asArray = none)
      (operand : Value.get members "$not" = some value)
      (part : parseQueryFilterWithDepth levels value = .ok expr) : Parsed levels members (.not expr)
  | fields {exprs : List ASTExpr} {ast : ASTExpr} (none : NoOperator members)
      (read : parseFields members = .ok exprs) (combined : combine exprs = .ok ast) :
      Parsed levels members ast

theorem asArray_eq_some {value : Value} : value.asArray = some values ↔ value = .array values := by
  cases value <;> simp [asArray]

theorem combineArray_eq_ok {make : List ASTExpr → ASTExpr} {op : String}
    (combined : combineArray make op exprs = .ok ast) : ast = make exprs := by
  cases exprs with
  | nil => cases combined
  | cons expr exprs => exact (Except.ok.inj combined).symm

theorem parsed_of_ok (ok : parseQueryFilterWithDepth (levels + 1) (.object members) = .ok ast) :
    Parsed levels members ast := by
  rw [parseQueryFilterWithDepth] at ok
  split at ok
  · rename_i values found
    obtain ⟨value, got, isArray⟩ := Option.bind_eq_some_iff.mp found
    obtain rfl := asArray_eq_some.mp isArray
    obtain ⟨exprs, parts, combined⟩ := except_bind_eq_ok.mp ok
    obtain rfl := combineArray_eq_ok combined
    exact .and got (mapM_eq_ok parts)
  rename_i first
  split at ok
  · rename_i values found
    obtain ⟨value, got, isArray⟩ := Option.bind_eq_some_iff.mp found
    obtain rfl := asArray_eq_some.mp isArray
    obtain ⟨exprs, parts, combined⟩ := except_bind_eq_ok.mp ok
    obtain rfl := combineArray_eq_ok combined
    exact .or first got (mapM_eq_ok parts)
  rename_i second
  split at ok
  · rename_i value got
    obtain ⟨expr, part, combined⟩ := except_bind_eq_ok.mp ok
    cases combined
    exact .not first second got part
  rename_i third
  split at ok
  · cases ok
  · rename_i plain
    obtain ⟨exprs, read, combined⟩ := except_bind_eq_ok.mp ok
    refine .fields ⟨first, second, third, fun mem listed => ?_⟩ read combined
    simpa using find?_eq_none.mp plain mem listed

theorem object_of_ok {filter : Value}
    (ok : parseQueryFilterWithDepth levels filter = .ok ast) :
    ∃ rest members, levels = rest + 1 ∧ filter = .object members := by
  cases levels with
  | zero =>
    cases ok
  | succ levels =>
    cases filter with
    | object members => exact ⟨levels, members, rfl, rfl⟩
    | _ =>
      rw [parseQueryFilterWithDepth] at ok
      · cases ok
      · simp

section Cases

variable {levels : ℕ} {members : List (String × Value)} {values : List Value} {value : Value}

theorem parse_and (array : get members "$and" = some (.array values)) :
    parseQueryFilterWithDepth (levels + 1) (.object members) = (do
      let exprs ← values.mapM (parseQueryFilterWithDepth levels)
      combineArray .and "$and" exprs) := by
  simp only [parseQueryFilterWithDepth, array, Option.bind_some, asArray]

variable (first : (Value.get members "$and").bind Value.asArray = none)
include first

theorem parse_or (array : get members "$or" = some (.array values)) :
    parseQueryFilterWithDepth (levels + 1) (.object members) = (do
      let exprs ← values.mapM (parseQueryFilterWithDepth levels)
      combineArray .or "$or" exprs) := by
  simp only [parseQueryFilterWithDepth, first, array, Option.bind_some, asArray]

theorem parse_not (second : (get members "$or").bind asArray = none)
    (operand : get members "$not" = some value) :
    parseQueryFilterWithDepth (levels + 1) (.object members) = (do
      let expr ← parseQueryFilterWithDepth levels value
      .ok (.not expr)) := by
  simp only [parseQueryFilterWithDepth, first, second, operand]

omit first

theorem parse_fields (none : NoOperator members) :
    parseQueryFilterWithDepth (levels + 1) (.object members) = (do
      let exprs ← parseFields members
      combine exprs) := by
  have plain : (members.find? fun mem => startsWithDollar mem.1) = Option.none := by
    simpa using none.dollar
  simp only [parseQueryFilterWithDepth, none.and, none.or, none.not, plain]

end Cases

/-! ## Without a member -/

theorem get_filter (members : List (String × Value)) (name other : String) :
    get (members.filter (·.1 ≠ name)) other =
      if other = name then none else get members other := by
  induction members with
  | nil => simp [Value.get]
  | cons mem members ih =>
    obtain ⟨here, value⟩ := mem
    unfold Value.get at ih ⊢
    by_cases dropped : here = name
    · subst dropped
      rw [filter_cons_of_neg (by simp), ih, lookup_cons]
      split
      · rfl
      · rename_i other'
        rw [beq_false_of_ne other']
    · rw [filter_cons_of_pos (by simpa using dropped), lookup_cons, lookup_cons, ih]
      by_cases same : other = here
      · subst same
        simp [dropped]
      · rw [beq_false_of_ne same]

theorem bind_get_filter (name : String) {other : String}
    (none : (get members other).bind asArray = none) :
    (get (members.filter (·.1 ≠ name)) other).bind asArray = Option.none := by
  rw [get_filter]
  split
  · rfl
  · exact none

/-- A value that adds no condition to those of a field. -/
def Silent : Value → Prop
  | .object conds => conds = []
  | _ => True

theorem parseFields_cons_of_silent {mem : String × Value} (silent : Silent mem.2)
    (members : List (String × Value)) : parseFields (mem :: members) = parseFields members := by
  obtain ⟨name, value⟩ := mem
  cases value with
  | object conds =>
    obtain rfl : conds = [] := silent
    rw [parseFields]
    cases parseFields members <;> rfl
  | _ => rfl

theorem parseFields_filter (silent : ∀ mem ∈ members, mem.1 = name → Silent mem.2) :
    parseFields (members.filter (·.1 ≠ name)) = parseFields members := by
  induction members with
  | nil => rfl
  | cons mem members ih =>
    have rest := ih fun other listed => silent other (mem_cons_of_mem _ listed)
    by_cases dropped : mem.1 = name
    · rw [filter_cons_of_neg (by simpa using dropped), rest,
        parseFields_cons_of_silent (silent mem mem_cons_self dropped)]
    · rw [filter_cons_of_pos (by simpa using dropped)]
      obtain ⟨field, value⟩ := mem
      cases value with
      | object conds => rw [parseFields, parseFields, rest]
      | _ => exact rest

theorem NoOperator.filter (none : NoOperator members) (name : String) :
    NoOperator (members.filter (·.1 ≠ name)) where
  and := bind_get_filter name none.and
  or := bind_get_filter name none.or
  not := by
    rw [get_filter, none.not]
    split <;> rfl
  dollar mem listed := none.dollar mem (mem_of_mem_filter listed)

/-- The members of an object are those of one name. -/
theorem eq_singleton (distinct : (members.map (·.1)).Nodup) {value : Value}
    (named : ∀ mem ∈ members, mem.1 = name) (got : get members name = some value) :
    members = [(name, value)] := by
  cases members with
  | nil => cases got
  | cons mem rest =>
    obtain ⟨here, held⟩ := mem
    obtain rfl : here = name := named _ mem_cons_self
    obtain rfl : held = value := by simpa [Value.get] using got
    cases rest with
    | nil => rfl
    | cons other rest =>
      have same := named other (by simp)
      rw [map_cons, map_cons, same] at distinct
      simp at distinct

/-! ## Every member is read -/

/-- Of no object nested in the filter a member can be left out. -/
def ReadsAll (levels : ℕ) (filter : Value) : Prop :=
  ∀ k members, Nested k filter (.object members) → ∀ member ∈ members,
    parseQueryFilterWithDepth (levels - k) (without members member.1) ≠
      parseQueryFilterWithDepth (levels - k) (.object members)

theorem ReadsAll.part {value : Value} (reads : ReadsAll (levels + 1) (.object members))
    (part : Operand members value) : ReadsAll levels value := by
  intro k others nested mem listed
  have read := reads (k + 1) others (.operand part nested) mem listed
  rwa [Nat.add_sub_add_right] at read

/-- Where leaving out another name changes nothing, an object has one member. -/
theorem ReadsAll.named (reads : ReadsAll levels (.object members))
    (unread : ∀ other ≠ name, parseQueryFilterWithDepth levels (without members other) =
      parseQueryFilterWithDepth levels (.object members)) :
    ∀ mem ∈ members, mem.1 = name := by
  intro mem listed
  by_contra other
  exact reads 0 members (.self _) mem listed (unread mem.1 other)

theorem complete_of_reads {filter : Value} (proper : filter.WellFormed)
    (ok : parseQueryFilterWithDepth levels filter = .ok ast) (reads : ReadsAll levels filter) :
    Complete filter := by
  induction levels generalizing filter ast with
  | zero =>
    obtain ⟨_, _, none, -⟩ := object_of_ok ok
    cases none
  | succ levels ih =>
    obtain ⟨-, members, -, rfl⟩ := object_of_ok ok
    cases proper with | object distinct parts => ?_
    cases parsed_of_ok ok with
    | and array all =>
      have named := reads.named fun other ne => (parse_and (by
        rw [get_filter, if_neg ne.symm, array])).trans (parse_and array).symm
      obtain rfl := eq_singleton distinct named array
      cases parts _ mem_cons_self with | array proper => ?_
      refine .and fun value listed => ?_
      obtain ⟨expr, part⟩ := exists_of_forall₂ all listed
      exact ih (proper value listed) part (reads.part (.and mem_cons_self listed))
    | or first array all =>
      have named := reads.named fun other ne => (parse_or (bind_get_filter other first) (by
        rw [get_filter, if_neg ne.symm, array])).trans (parse_or first array).symm
      obtain rfl := eq_singleton distinct named array
      cases parts _ mem_cons_self with | array proper => ?_
      refine .or fun value listed => ?_
      obtain ⟨expr, part⟩ := exists_of_forall₂ all listed
      exact ih (proper value listed) part (reads.part (.or mem_cons_self listed))
    | not first second operand part =>
      have named := reads.named fun other ne => (parse_not (bind_get_filter other first)
        (bind_get_filter other second) (by
          rw [get_filter, if_neg ne.symm, operand])).trans (parse_not first second operand).symm
      obtain rfl := eq_singleton distinct named operand
      exact .not (ih (parts _ mem_cons_self) part (reads.part (.not mem_cons_self)))
    | fields none read combined =>
      refine .fields fun mem listed => ⟨none.dollar mem listed, ?_⟩
      by_contra noConditions
      have silent : Silent mem.2 := by
        cases held : mem.2 with
        | object conds =>
          by_contra some
          exact noConditions ⟨conds, held, some⟩
        | _ => trivial
      refine reads 0 members (.self _) mem listed ?_
      refine ((parse_fields (none.filter mem.1)).trans ?_).trans (parse_fields none).symm
      rw [parseFields_filter fun other otherListed same => ?_]
      rwa [inj_on_of_nodup_map distinct otherListed listed same]

/-! ## Nothing is lost -/

section Accepted

variable {levels : ℕ} {values : List Value} {value : Value} {ast : ASTExpr}

theorem accepted_and
    (ok : parseQueryFilterWithDepth (levels + 1) (.object [("$and", .array values)]) = .ok ast) :
    ∃ exprs, ast = .and exprs ∧ Forall₂ (fun value expr =>
      parseQueryFilterWithDepth levels value = .ok expr) values exprs := by
  obtain ⟨exprs, parts, combined⟩ := except_bind_eq_ok.mp ok
  exact ⟨exprs, combineArray_eq_ok combined, mapM_eq_ok parts⟩

theorem accepted_or
    (ok : parseQueryFilterWithDepth (levels + 1) (.object [("$or", .array values)]) = .ok ast) :
    ∃ exprs, ast = .or exprs ∧ Forall₂ (fun value expr =>
      parseQueryFilterWithDepth levels value = .ok expr) values exprs := by
  obtain ⟨exprs, parts, combined⟩ := except_bind_eq_ok.mp ok
  exact ⟨exprs, combineArray_eq_ok combined, mapM_eq_ok parts⟩

theorem accepted_not (ok : parseQueryFilterWithDepth (levels + 1) (.object [("$not", value)]) = .ok ast) :
    ∃ expr, ast = .not expr ∧ parseQueryFilterWithDepth levels value = .ok expr := by
  obtain ⟨expr, part, combined⟩ := except_bind_eq_ok.mp ok
  exact ⟨expr, (Except.ok.inj combined).symm, part⟩

end Accepted

/-- Only fields are read where no name begins with a dollar. -/
theorem noOperator_of_fields (dollar : ∀ mem ∈ members, startsWithDollar mem.1 = false) :
    NoOperator members := by
  have absent (name : String) (operator : startsWithDollar name = true) :
      get members name = none := by
    cases got : get members name with
    | none => rfl
    | some value => exact absurd (dollar _ (mem_of_get got)) (by simp [operator])
  exact ⟨by rw [absent _ (by decide)]; rfl, by rw [absent _ (by decide)]; rfl, absent _ (by decide),
    dollar⟩

theorem Complete.part {value : Value} (complete : Complete (.object members))
    (ok : parseQueryFilterWithDepth (levels + 1) (.object members) = .ok ast)
    (part : Operand members value) :
    Complete value ∧ ∃ expr, parseQueryFilterWithDepth levels value = .ok expr := by
  cases complete with
  | and parts =>
    obtain ⟨exprs, -, all⟩ := accepted_and ok
    cases part with
    | and mem listed =>
      obtain rfl := by simpa using mem
      exact ⟨parts value listed, exists_of_forall₂ all listed⟩
    | or mem => simp at mem
    | not mem => simp at mem
  | or parts =>
    obtain ⟨exprs, -, all⟩ := accepted_or ok
    cases part with
    | and mem => simp at mem
    | or mem listed =>
      obtain rfl := by simpa using mem
      exact ⟨parts value listed, exists_of_forall₂ all listed⟩
    | not mem => simp at mem
  | not operand =>
    obtain ⟨expr, -, done⟩ := accepted_not ok
    cases part with
    | and mem => simp at mem
    | or mem => simp at mem
    | not mem =>
      obtain rfl := by simpa using mem
      exact ⟨operand, expr, done⟩
  | fields conditions =>
    have plain (name : String) (operator : startsWithDollar name = true) (value : Value) :
        (name, value) ∉ members := fun mem => by
      have none := (conditions _ mem).1
      rw [operator] at none
      cases none
    cases part with
    | and mem => exact absurd mem (plain _ (by decide) _)
    | or mem => exact absurd mem (plain _ (by decide) _)
    | not mem => exact absurd mem (plain _ (by decide) _)

/-- What is nested in a complete filter is accepted as well, on the levels that are left. -/
theorem Nested.accepted {k : ℕ} {filter sub : Value} (nested : Nested k filter sub)
    (complete : Complete filter) (accepted : parseQueryFilterWithDepth levels filter = .ok ast) :
    Complete sub ∧ ∃ rest expr, levels = rest + 1 + k ∧
      parseQueryFilterWithDepth (rest + 1) sub = .ok expr := by
  induction nested generalizing levels ast with
  | self filter =>
    obtain ⟨rest, _, rfl, -⟩ := object_of_ok accepted
    exact ⟨complete, rest, ast, rfl, accepted⟩
  | operand part nested ih =>
    obtain ⟨rest, _, rfl, -⟩ := object_of_ok accepted
    obtain ⟨complete, expr, done⟩ := complete.part accepted part
    obtain ⟨complete, left, found, levels, last⟩ := ih complete done
    exact ⟨complete, left, found, by omega, last⟩

/-! ## Fields -/

theorem parseConditions_ok {field : String} {conds : List (String × Value)}
    (read : parseConditions field conds = .ok exprs) :
    exprs.length = conds.length ∧ (∀ expr ∈ exprs, ∃ name op, expr = .compare name op) ∧
      ∀ label, evalAll label exprs = conds.all (conditionMeans label field) := by
  induction conds generalizing exprs with
  | nil =>
    cases read
    exact ⟨rfl, nofun, fun _ => by rw [evalAll]; rfl⟩
  | cons cond conds ih =>
    obtain ⟨op, parsed, rest⟩ := except_bind_eq_ok.mp read
    obtain ⟨exprs', others, same⟩ := except_bind_eq_ok.mp rest
    cases same
    obtain ⟨length, compares, meaning⟩ := ih others
    refine ⟨congrArg (· + 1) length, ?_, fun label => ?_⟩
    · rintro expr (_ | ⟨_, mem⟩)
      · exact ⟨field, op, rfl⟩
      · exact compares expr mem
    · rw [evalAll, evalQueryExpr, meaning, all_cons, conditionMeans, parsed]

theorem evalAll_append (label : Value) (exprs others : List ASTExpr) :
    evalAll label (exprs ++ others) = (evalAll label exprs && evalAll label others) := by
  induction exprs with
  | nil => rw [nil_append, evalAll, Bool.true_and]
  | cons expr exprs ih => rw [cons_append, evalAll, evalAll, ih, Bool.and_assoc]

/-- The conditions on a field. -/
def conditionCount : Value → ℕ
  | .object conds => conds.length
  | _ => 0

theorem parseFields_ok (read : parseFields members = .ok exprs) :
    exprs.length = (members.map fun mem => conditionCount mem.2).sum ∧
      ∀ expr ∈ exprs, ∃ name op, expr = .compare name op := by
  induction members generalizing exprs with
  | nil =>
    cases read
    exact ⟨rfl, nofun⟩
  | cons mem members ih =>
    obtain ⟨field, value⟩ := mem
    cases value with
    | object conds =>
      obtain ⟨own, first, rest⟩ := except_bind_eq_ok.mp read
      obtain ⟨others, second, same⟩ := except_bind_eq_ok.mp rest
      cases same
      obtain ⟨length, compares, -⟩ := parseConditions_ok first
      obtain ⟨lengths, compare⟩ := ih second
      refine ⟨?_, fun expr listed => ?_⟩
      · rw [length_append, length, lengths]
        rfl
      · exact (mem_append.mp listed).elim (compares expr) (compare expr)
    | _ =>
      obtain ⟨lengths, compare⟩ := ih read
      exact ⟨lengths.trans (by simp [conditionCount]), compare⟩

/-- Where every field has an object, its conditions are the meaning. -/
theorem parseFields_means (conditions : ∀ mem ∈ members, startsWithDollar mem.1 = false ∧
      ∃ conds, mem.2 = .object conds ∧ conds ≠ []) (read : parseFields members = .ok exprs)
    (label : Value) : evalAll label exprs = membersMean label members := by
  induction members generalizing exprs with
  | nil =>
    cases read
    rw [evalAll, membersMean]
  | cons mem members ih =>
    obtain ⟨field, value⟩ := mem
    obtain ⟨plain, conds, rfl, -⟩ := conditions _ mem_cons_self
    obtain ⟨own, first, rest⟩ := except_bind_eq_ok.mp read
    obtain ⟨others, second, same⟩ := except_bind_eq_ok.mp rest
    cases same
    have next := ih (fun other listed => conditions other (mem_cons_of_mem _ listed)) second
    have name : field ≠ "$not" := by
      rintro rfl
      exact absurd plain (show startsWithDollar "$not" ≠ false by decide)
    rw [evalAll_append, (parseConditions_ok first).2.2, next, membersMean, memberMeans, if_neg name]

theorem evalQueryExpr_combine (combined : combine exprs = .ok ast) (label : Value) :
    evalQueryExpr label ast = evalAll label exprs := by
  match exprs with
  | [] => cases combined
  | [expr] =>
    cases combined
    rw [evalAll, evalAll, Bool.and_true]
  | _ :: _ :: _ =>
    cases combined
    rw [evalQueryExpr]

/-- Lists of comparisons are told apart by what they are combined to. -/
theorem length_eq_of_combine {others : List ASTExpr} (combined : combine exprs = .ok ast)
    (combined' : combine others = .ok ast)
    (compares : ∀ expr ∈ exprs, ∃ name op, expr = .compare name op)
    (compares' : ∀ expr ∈ others, ∃ name op, expr = .compare name op) :
    exprs.length = others.length := by
  match exprs, others with
  | [], _ => cases combined
  | _, [] => cases combined'
  | [_], [_] => rfl
  | [expr], _ :: _ :: _ =>
    cases combined
    obtain ⟨name, op, rfl⟩ := compares _ mem_cons_self
    cases combined'
  | _ :: _ :: _, [expr] =>
    obtain rfl := Except.ok.inj combined'
    obtain ⟨name, op, rfl⟩ := compares' _ mem_cons_self
    cases combined
  | _ :: _ :: _, _ :: _ :: _ =>
    cases combined
    cases combined'
    rfl

/-! ## Accepted filters -/

theorem evalAll_eq_allMean {label : Value}
    (same : Forall₂ (fun value expr => evalQueryExpr label expr = means label value) values exprs) :
    evalAll label exprs = allMean label values := by
  induction same with
  | nil => rw [evalAll, allMean]
  | cons head _ ih => rw [evalAll, allMean, head, ih]

theorem evalAny_eq_anyMean {label : Value}
    (same : Forall₂ (fun value expr => evalQueryExpr label expr = means label value) values exprs) :
    evalAny label exprs = anyMean label values := by
  induction same with
  | nil => rw [evalAny, anyMean]
  | cons head _ ih => rw [evalAny, anyMean, head, ih]

theorem means_singleton (label : Value) (name : String) (value : Value) :
    means label (.object [(name, value)]) = memberMeans label name value := by
  rw [means, membersMean, membersMean, Bool.and_true]

theorem Complete.meaning {filter : Value} (complete : Complete filter)
    (ok : parseQueryFilterWithDepth levels filter = .ok ast) (label : Value) :
    evalQueryExpr label ast = means label filter := by
  induction complete generalizing levels ast with
  | and parts ih =>
    obtain ⟨rest, _, rfl, -⟩ := object_of_ok ok
    obtain ⟨exprs, rfl, all⟩ := accepted_and ok
    rw [evalQueryExpr, means_singleton, memberMeans, if_pos rfl]
    apply evalAll_eq_allMean
    exact forall₂_imp_of_mem (fun value listed expr part => ih value listed part) all
  | or parts ih =>
    obtain ⟨rest, _, rfl, -⟩ := object_of_ok ok
    obtain ⟨exprs, rfl, all⟩ := accepted_or ok
    rw [evalQueryExpr, means_singleton, memberMeans, if_neg (by decide), if_pos rfl]
    apply evalAny_eq_anyMean
    exact forall₂_imp_of_mem (fun value listed expr part => ih value listed part) all
  | not part ih =>
    obtain ⟨rest, _, rfl, -⟩ := object_of_ok ok
    obtain ⟨expr, rfl, done⟩ := accepted_not ok
    obtain ⟨_, members, -, rfl⟩ := object_of_ok done
    rw [evalQueryExpr, means_singleton, memberMeans, if_pos rfl, ih done, means]
  | fields conditions =>
    obtain ⟨rest, _, rfl, -⟩ := object_of_ok ok
    have none := noOperator_of_fields fun mem listed => (conditions mem listed).1
    rw [parse_fields none] at ok
    obtain ⟨exprs, read, combined⟩ := except_bind_eq_ok.mp ok
    rw [evalQueryExpr_combine combined, parseFields_means conditions read, means]

/-- An object without members is rejected. -/
theorem parse_empty (levels : ℕ) : parseQueryFilterWithDepth (levels + 1) (.object []) =
    .error (.parseFailure "No valid expressions found") := by
  rfl

theorem Complete.readsOwn (complete : Complete (.object members))
    (ok : parseQueryFilterWithDepth (levels + 1) (.object members) = .ok ast)
    {mem : String × Value} (listed : mem ∈ members) :
    parseQueryFilterWithDepth (levels + 1) (without members mem.1) ≠ .ok ast := by
  -- A member that stands alone leaves an object without members.
  have alone {name : String} {value : Value} (single : members = [(name, value)]) :
      parseQueryFilterWithDepth (levels + 1) (without members mem.1) ≠ .ok ast := by
    subst single
    obtain rfl := mem_singleton.mp listed
    have rest : without [(name, value)] name = .object [] := by simp [without]
    rw [rest, parse_empty]
    simp
  cases complete with
  | and parts => exact alone rfl
  | or parts => exact alone rfl
  | not part => exact alone rfl
  | fields conditions =>
    have none := noOperator_of_fields fun mem listed => (conditions mem listed).1
    rw [without, parse_fields (none.filter mem.1)]
    rw [parse_fields none] at ok
    intro ok'
    obtain ⟨exprs, read, combined⟩ := except_bind_eq_ok.mp ok
    obtain ⟨others, read', combined'⟩ := except_bind_eq_ok.mp ok'
    obtain ⟨length, compares⟩ := parseFields_ok read
    obtain ⟨length', compares'⟩ := parseFields_ok read'
    have same := length_eq_of_combine combined combined' compares compares'
    rw [length, length'] at same
    have split := ((filter_append_perm (·.1 ≠ mem.1) members).map fun mem =>
      conditionCount mem.2).sum_eq
    rw [map_append, sum_append, ← same] at split
    -- The member that is left out has a condition.
    have left : mem ∈ members.filter fun other => !decide (other.1 ≠ mem.1) := by simp [listed]
    have counted := le_sum_of_mem (mem_map_of_mem (f := fun mem : String × Value =>
      conditionCount mem.2) left)
    obtain ⟨-, conds, held, some⟩ := conditions mem listed
    have pos := length_pos_iff.mpr some
    rw [held] at counted
    simp only [conditionCount] at counted split
    omega

/-- An accepted filter is read as it is meant exactly if it is complete. -/
theorem parseQueryFilter_faithful_iff {filter : Value} {ast : ASTExpr} (proper : filter.WellFormed)
    (accepted : parseQueryFilter filter = .ok ast) : Faithful filter ast ↔ Complete filter := by
  constructor
  · exact fun faithful => complete_of_reads proper accepted faithful.reads
  · intro complete
    refine ⟨complete.meaning accepted, fun k members nested member listed => ?_, fun k sub nested => ?_⟩
    · obtain ⟨complete, rest, expr, levels, last⟩ := nested.accepted complete accepted
      have left : allowedDepthLimit + 1 - k = rest + 1 := by omega
      rw [left, last]
      exact complete.readsOwn last listed
    · obtain ⟨-, rest, expr, levels, -⟩ := nested.accepted complete accepted
      omega

/-- A number as JSON. -/
def jsonInteger (n : BitVec 64) : Value := .number (.posInt n)

/-- The field `b` stands beside an operator, and is not read. -/
def mixed : Value := .object [("$or", .array [.object [("a", .object [("$eq", jsonInteger 1)])]]),
  ("b", .object [("$eq", jsonInteger 2)])]

/-- A document that the filter is to reject is accepted. -/
theorem parseQueryFilter_mixed :
    ∃ ast, parseQueryFilter mixed = .ok ast ∧
      evalQueryExpr (.object [("a", jsonInteger 1), ("b", jsonInteger 3)]) ast = true ∧
      means (.object [("a", jsonInteger 1), ("b", jsonInteger 3)]) mixed = false := by
  refine ⟨.or [.compare "a" (.eq (jsonInteger 1))], rfl, ?_, ?_⟩
  · decide
  · decide

/-- One field with one condition. -/
def single : Value := .object [("a", .object [("$eq", jsonInteger 1)])]

theorem parseQueryFilter_single : ∃ ast, parseQueryFilter single = .ok ast ∧ Faithful single ast := by
  have proper : single.WellFormed := by
    refine .object (by simp) fun member listed => ?_
    obtain rfl := mem_singleton.mp listed
    refine .object (by simp) fun cond listed => ?_
    obtain rfl := mem_singleton.mp listed
    exact .number _
  refine ⟨.compare "a" (.eq (jsonInteger 1)), rfl, ?_⟩
  refine (parseQueryFilter_faithful_iff proper rfl).mpr (.fields fun member listed => ?_)
  obtain rfl := mem_singleton.mp listed
  exact ⟨by decide, _, rfl, by simp⟩

end DiskAnn.LabelFilter
