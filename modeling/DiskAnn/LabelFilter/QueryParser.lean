import DiskAnn.LabelFilter.Json
import DiskAnn.LabelFilter.LabelIdMapper

/-! # Filters as JSON

`query_parser.rs` reads a filter, and `evaluator.rs` evaluates it on a label document.
-/

namespace DiskAnn.LabelFilter

/-! ## Evaluation -/

/-- The member at a path of names with dots between them. -/
def getValueByPath (value : Value) (path : String) : Option Value :=
  ((path.toList.splitOn '.').map String.ofList).foldlM (fun current key =>
    match current with
    | .object members => Value.get members key
    | _ => none) value

/-- A comparison with a number, which is false for what is none. -/
def compareNumber (compare : F64 → Bool) (value : Value) : Bool :=
  match value.asF64 with
  | some f => compare f
  | none => false

def evalCompare (label : Value) (field : String) (op : CompareOp) : Bool :=
  match getValueByPath label field with
  | none => false
  | some value =>
      match op with
      | .eq other => value.eq other
      | .ne other => !value.eq other
      | .lt num => compareNumber (·.lt num) value
      | .lte num => compareNumber (num.ge ·) value
      | .gt num => compareNumber (num.lt ·) value
      | .gte num => compareNumber (·.ge num) value

mutual

def evalQueryExpr (label : Value) : ASTExpr → Bool
  | .and subs => evalAll label subs
  | .or subs => evalAny label subs
  | .not sub => !evalQueryExpr label sub
  | .compare field op => evalCompare label field op

def evalAll (label : Value) : List ASTExpr → Bool
  | [] => true
  | sub :: subs => evalQueryExpr label sub && evalAll label subs

def evalAny (label : Value) : List ASTExpr → Bool
  | [] => false
  | sub :: subs => evalQueryExpr label sub || evalAny label subs

end

/-! ## Parsing -/

/-- The values in an error are rendered as JSON. -/
inductive QueryFilterError
  | nestingTooDeep (maxDepth : ℕ)
  | unsupportedLogicalOperator (op : String)
  | unsupportedComparisonOperator (op : String)
  | invalidValueType (expected : String) (got : Value)
  | parseFailure (message : String)

def allowedDepthLimit : ℕ := 2

def parseNumeric (make : F64 → CompareOp) (val : Value) : Except QueryFilterError CompareOp :=
  match val.asF64 with
  | some num => .ok (make num)
  | none => .error (.invalidValueType "numeric" val)

def parseOp (op : String) (val : Value) : Except QueryFilterError CompareOp :=
  if op = "$eq" then .ok (.eq val)
  else if op = "$ne" then .ok (.ne val)
  else if op = "$lt" then parseNumeric .lt val
  else if op = "$lte" then parseNumeric .lte val
  else if op = "$gt" then parseNumeric .gt val
  else if op = "$gte" then parseNumeric .gte val
  else .error (.unsupportedComparisonOperator op)

/-- The conditions on one field. -/
def parseConditions (field : String) : List (String × Value) → Except QueryFilterError (List ASTExpr)
  | [] => .ok []
  | (op, val) :: conds => do
      let op ← parseOp op val
      let subexprs ← parseConditions field conds
      .ok (.compare field op :: subexprs)

/-- The loop over the fields, which passes over a member that is not an object. -/
def parseFields : List (String × Value) → Except QueryFilterError (List ASTExpr)
  | [] => .ok []
  | (field, .object conds) :: members => do
      let subexprs ← parseConditions field conds
      let rest ← parseFields members
      .ok (subexprs ++ rest)
  | (_, _) :: members => parseFields members

/-- The expression of an object with fields. -/
def combine : List ASTExpr → Except QueryFilterError ASTExpr
  | [] => .error (.parseFailure "No valid expressions found")
  | [expr] => .ok expr
  | exprs => .ok (.and exprs)

/-- The expression of a logical operator with an array. -/
def combineArray (make : List ASTExpr → ASTExpr) (op : String) :
    List ASTExpr → Except QueryFilterError ASTExpr
  | [] => .error (.parseFailure ("Empty " ++ op ++ " array or no valid expressions"))
  | exprs => .ok (make exprs)

/-- `starts_with('$')` -/
def startsWithDollar (field : String) : Bool := field.toList.head? == some '$'

/-- `levels` counts the depths that are left, down from one more than the limit. -/
def parseQueryFilterWithDepth : ℕ → Value → Except QueryFilterError ASTExpr
  | 0, _ => .error (.nestingTooDeep allowedDepthLimit)
  | levels + 1, .object obj =>
      match (Value.get obj "$and").bind Value.asArray with
      | some arr => do
          let exprs ← arr.mapM (parseQueryFilterWithDepth levels)
          combineArray .and "$and" exprs
      | none =>
      match (Value.get obj "$or").bind Value.asArray with
      | some arr => do
          let exprs ← arr.mapM (parseQueryFilterWithDepth levels)
          combineArray .or "$or" exprs
      | none =>
      match Value.get obj "$not" with
      | some sub => do
          let expr ← parseQueryFilterWithDepth levels sub
          .ok (.not expr)
      | none =>
      match obj.find? fun member => startsWithDollar member.1 with
      | some member => .error (.unsupportedLogicalOperator member.1)
      | none => do
          let subexprs ← parseFields obj
          combine subexprs
  | _ + 1, _ => .error (.parseFailure "Not a JSON object")

def parseQueryFilter (filter : Value) : Except QueryFilterError ASTExpr :=
  parseQueryFilterWithDepth (allowedDepthLimit + 1) filter

end DiskAnn.LabelFilter
