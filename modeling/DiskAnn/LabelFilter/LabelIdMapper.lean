import DiskAnn.Data.Fallible
import DiskAnn.LabelFilter.AttributeStore

/-! # Filters on numbers

`ast_label_id_mapper.rs` replaces the attributes of a filter by their numbers, and
`predicate_evaluator.rs` evaluates the result on the numbers of a vector.
-/

namespace DiskAnn.LabelFilter

open Fallible

/-! ## Filters -/

/-- The comparisons, with their operands. -/
inductive CompareOp
  | eq (value : Value)
  | ne (value : Value)
  | lt (num : F64)
  | lte (num : F64)
  | gt (num : F64)
  | gte (num : F64)

/-- `Display` -/
def CompareOp.display : CompareOp → String
  | eq _ => "=="
  | ne _ => "!="
  | lt _ => "<"
  | lte _ => "<="
  | gt _ => ">"
  | gte _ => ">="

inductive ASTExpr
  | and (exprs : List ASTExpr)
  | or (exprs : List ASTExpr)
  | not (expr : ASTExpr)
  | compare (field : String) (op : CompareOp)

/-- A filter on numbers. -/
inductive ASTIdExpr (T : Type)
  | and (exprs : List (ASTIdExpr T))
  | or (exprs : List (ASTIdExpr T))
  | not (expr : ASTIdExpr T)
  | terminal (id : T)

/-! ## Mapping -/

namespace ASTLabelIdMapper

def lookup (encoder : AttributeEncoder) (attr : Attribute) (field : String) (op : CompareOp) :
    Except StoreError (ASTIdExpr ℕ) :=
  match encoder.get attr with
  | some attributeId => .ok (.terminal attributeId)
  | none => .error (.message
      (field ++ "+" ++ op.display ++ " present in the query does not exist in the dataset."))

def visitCompare (encoder : AttributeEncoder) (field : String) (op : CompareOp) :
    Except StoreError (ASTIdExpr ℕ) :=
  match op with
  | .eq value =>
      match Attribute.fromJsonValue field value with
      | .ok attr => lookup encoder attr field op
      | .error e => .error (.json e)
  | _ => .error (.message
      ("CompareOp " ++ op.display ++ " is not supported in the mapped filter search scenario."))

mutual

def visit (encoder : AttributeEncoder) : ASTExpr → Except StoreError (ASTIdExpr ℕ)
  | .and exprs => do
      let idExprs ← visitAll encoder exprs
      pure (.and idExprs)
  | .or exprs => do
      let idExprs ← visitAll encoder exprs
      pure (.or idExprs)
  | .not expr => do
      let idExpr ← visit encoder expr
      pure (.not idExpr)
  | .compare field op => visitCompare encoder field op

/-- The loop of `visit_and` and `visit_or`. -/
def visitAll (encoder : AttributeEncoder) : List ASTExpr → Except StoreError (List (ASTIdExpr ℕ))
  | [] => pure []
  | expr :: exprs => do
      let idExpr ← visit encoder expr
      let idExprs ← visitAll encoder exprs
      pure (idExpr :: idExprs)

end

end ASTLabelIdMapper

/-! ## Evaluation -/

namespace PredicateEvaluator

variable {T E : Type} (contains : T → Except E Bool)

mutual

/-- `contains` is that of the labels of a point. -/
def visit : ASTIdExpr T → Except E Bool
  | .and exprs => visitAnd exprs
  | .or exprs => visitOr exprs
  | .not expr =>
      match visit expr with
      | .ok result => .ok !result
      | .error e => .error e
  | .terminal labelId => contains labelId

def visitAnd : List (ASTIdExpr T) → Except E Bool
  | [] => .ok true
  | expr :: exprs =>
      match visit expr with
      | .ok true => visitAnd exprs
      | .ok false => .ok false
      | .error e => .error e

def visitOr : List (ASTIdExpr T) → Except E Bool
  | [] => .ok false
  | expr :: exprs =>
      match visit expr with
      | .ok true => .ok true
      | .ok false => visitOr exprs
      | .error e => .error e

end

end PredicateEvaluator

/-- `contains` of a set of numbers. -/
def containsLabel (ids : Finset ℕ) (id : ℕ) : Except StoreError Bool := .ok (id ∈ ids)

/-! ## What a filter means -/

namespace ASTExpr

mutual

/-- The filter holds of the attributes of a vector. Only comparisons for equality can be mapped. -/
def holds (attrs : List Attribute) : ASTExpr → Bool
  | .and exprs => allHold attrs exprs
  | .or exprs => anyHolds attrs exprs
  | .not expr => !expr.holds attrs
  | .compare field (.eq value) =>
      match Attribute.fromJsonValue field value with
      | .ok attr => attrs.any (·.eq attr)
      | .error _ => false
  | .compare _ _ => false

def allHold (attrs : List Attribute) : List ASTExpr → Bool
  | [] => true
  | expr :: exprs => expr.holds attrs && allHold attrs exprs

def anyHolds (attrs : List Attribute) : List ASTExpr → Bool
  | [] => false
  | expr :: exprs => expr.holds attrs || anyHolds attrs exprs

end

end ASTExpr

/-! ## The mapped filter means the same -/

section Agreement

variable {e : AttributeEncoder} {ids : Finset ℕ} {attrs : List Attribute}

/-- The numbers of a vector tell its attributes from the others that have one. -/
def Reads (e : AttributeEncoder) (ids : Finset ℕ) (attrs : List Attribute) : Prop :=
  ∀ ⦃attr i⦄, e.get attr = some i → (i ∈ ids ↔ attrs.any (·.eq attr) = true)

open ASTLabelIdMapper ASTExpr

theorem visitCompare_holds (reads : Reads e ids attrs) {field : String} {op : CompareOp}
    {idExpr : ASTIdExpr ℕ} (mapped : visitCompare e field op = .ok idExpr) :
    PredicateEvaluator.visit (containsLabel ids) idExpr =
      .ok ((compare field op).holds attrs) := by
  cases op with
  | eq value =>
    unfold holds
    unfold visitCompare at mapped
    cases converted : Attribute.fromJsonValue field value with
    | error error => simp [converted] at mapped
    | ok attr =>
      simp only [converted, lookup] at mapped ⊢
      split at mapped <;> rename_i found
      · cases mapped
        refine congrArg Except.ok (Bool.eq_iff_iff.mpr ?_)
        rw [decide_eq_true_iff]
        exact reads found
      · cases mapped
  | _ => cases mapped

mutual

/-- One case per constructor; the lists of `and` and `or` go together. -/
theorem visit_holds (reads : Reads e ids attrs) :
    ∀ (expr : ASTExpr) {idExpr : ASTIdExpr ℕ}, visit e expr = .ok idExpr →
      PredicateEvaluator.visit (containsLabel ids) idExpr = .ok (expr.holds attrs)
  | .and exprs, idExpr, mapped => by
    unfold visit at mapped
    obtain ⟨idExprs, all, mapped⟩ := except_bind_eq_ok.mp mapped
    cases mapped
    exact (visitAll_holds reads exprs all).1
  | .or exprs, idExpr, mapped => by
    unfold visit at mapped
    obtain ⟨idExprs, all, mapped⟩ := except_bind_eq_ok.mp mapped
    cases mapped
    exact (visitAll_holds reads exprs all).2
  | .not expr, idExpr, mapped => by
    unfold visit at mapped
    obtain ⟨idExpr, inner, mapped⟩ := except_bind_eq_ok.mp mapped
    cases mapped
    rw [PredicateEvaluator.visit, visit_holds reads expr inner]
    rfl
  | .compare field op, idExpr, mapped => visitCompare_holds reads mapped

theorem visitAll_holds (reads : Reads e ids attrs) :
    ∀ (exprs : List ASTExpr) {idExprs : List (ASTIdExpr ℕ)},
      visitAll e exprs = .ok idExprs →
      PredicateEvaluator.visitAnd (containsLabel ids) idExprs = .ok (allHold attrs exprs) ∧
      PredicateEvaluator.visitOr (containsLabel ids) idExprs = .ok (anyHolds attrs exprs)
  | [], idExprs, mapped => by
    cases mapped
    exact ⟨rfl, rfl⟩
  | expr :: exprs, idExprs, mapped => by
    unfold visitAll at mapped
    obtain ⟨idExpr, first, mapped⟩ := except_bind_eq_ok.mp mapped
    obtain ⟨others, rest, mapped⟩ := except_bind_eq_ok.mp mapped
    cases mapped
    obtain ⟨all, any⟩ := visitAll_holds reads exprs rest
    unfold PredicateEvaluator.visitAnd PredicateEvaluator.visitOr allHold anyHolds
    rw [visit_holds reads expr first, all, any]
    cases expr.holds attrs <;> exact ⟨rfl, rfl⟩

end

end Agreement

namespace RoaringAttributeStore

variable {IT : Type} [DecidableEq IT] [IntoUsize IT]

/-- Also numbers that were looked up before the last calls tell the attributes last set. -/
theorem reads_run (before after : List (Call IT)) {id : IT} {attrs : List Attribute}
    (given : latest (before ++ after) id = some attrs) :
    ∃ ids, (run (before ++ after)).index.get id = some ids ∧
      Reads (run before).attributeMap ids attrs := by
  have holds := holds_run (before ++ after)
  have present := holds.present id
  rw [given, Option.isSome_some, Option.isSome_iff_exists] at present
  obtain ⟨ids, stored⟩ := present
  refine ⟨ids, stored, fun attr i found => ?_⟩
  have later := run_extends before after found
  have mem : i ∈ ids ↔ (run (before ++ after)).index.Mem id i := by
    simp [SetProvider.Mem, stored]
  rw [mem, holds.mem_index, given, List.any_eq_true]
  refine exists_congr fun other => and_congr_right fun _ => ?_
  rw [Attribute.eq_iff]
  refine ⟨fun same => holds.numbers.injective same later, fun same => ?_⟩
  rw [AttributeEncoder.get_congr same, later]

/-- After any calls the two indices are inverse to each other, `delete` does not fail, and a filter
that has been mapped then or earlier means on the numbers of a vector what it means on the attributes
last set. -/
theorem run_agrees (before after : List (Call IT)) :
    (∀ id i, (run (before ++ after)).index.Mem id i ↔
      (run (before ++ after)).invIndex.Mem i (intoUsize id)) ∧
    (∀ i n, (run (before ++ after)).invIndex.Mem i n → ∃ id : IT, intoUsize id = n) ∧
    (∀ id, ((run (before ++ after)).delete id).1 = .ok (latest (before ++ after) id).isSome) ∧
    ∀ expr idExpr, ASTLabelIdMapper.visit (run before).attributeMap expr = .ok idExpr →
      ∀ id attrs, latest (before ++ after) id = some attrs →
        ∃ ids, (run (before ++ after)).index.get id = some ids ∧
          PredicateEvaluator.visit (containsLabel ids) idExpr = .ok (expr.holds attrs) := by
  have holds := holds_run (before ++ after)
  refine ⟨fun id i => ?_, fun i n member => ?_, fun id => (delete_eq holds id).1, ?_⟩
  · rw [holds.mem_invIndex]
    constructor
    · exact fun member => ⟨id, rfl, member⟩
    · rintro ⟨other, same, member⟩
      exact IntoUsize.injective same ▸ member
  · obtain ⟨id, same, -⟩ := (holds.mem_invIndex i n).mp member
    exact ⟨id, same⟩
  · intro expr idExpr mapped id attrs given
    obtain ⟨ids, stored, reads⟩ := reads_run before after given
    exact ⟨ids, stored, visit_holds reads expr mapped⟩

end RoaringAttributeStore

end DiskAnn.LabelFilter
