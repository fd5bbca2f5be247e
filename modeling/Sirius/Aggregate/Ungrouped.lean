import Mathlib.Data.List.ReduceOption
import Sirius.Aggregate.Grouped

/-!
# Ungrouped aggregation

`sirius_physical_ungrouped_aggregate` turns every batch into one row of partial results, and its merge
operator reduces the columns of these rows. A single row is passed on without a reduction. AVG has two
partial columns, which `make_avg_column` divides at the end.

Payloads of columns are abstract. cuDF reads integers, decimals and booleans as numbers, and adds
floating-point numbers in an order of its own.
-/

namespace Sirius.Aggregate

open Lib
open Sirius.Sort (Row)
open Sirius.Expression (CudfTypeId DataType LogicalType getCudfType)

/-! ## cuDF -/

/-- A sum as the type holds it. -/
def wrap (type : CudfTypeId) (n : Int) : Int :=
  match type with
  | .int8 => n.bmod (2 ^ 8)
  | .int16 => n.bmod (2 ^ 16)
  | .int32 | .decimal32 => n.bmod (2 ^ 32)
  | .int64 | .decimal64 => n.bmod (2 ^ 64)
  | .decimal128 => n.bmod (2 ^ 128)
  | .uint8 => n % 2 ^ 8
  | .uint16 => n % 2 ^ 16
  | .uint32 => n % 2 ^ 32
  | .uint64 => n % 2 ^ 64
  | .bool8 => if n = 0 then 0 else 1
  | _ => n

def isFloat (type : DataType) : Bool := type.id == .float32 || type.id == .float64

def isDecimal (type : DataType) : Bool :=
  type.id == .decimal32 || type.id == .decimal64 || type.id == .decimal128

def isNumeric (type : DataType) : Bool :=
  type.id ∈ [.int8, .int16, .int32, .int64, .uint8, .uint16, .uint32, .uint64, .float32, .float64,
    .bool8]

structure Payload (V : Type) where
  toInt : V → Int
  ofInt : Int → V
  toInt_ofInt : ∀ n, toInt (ofInt n) = n
  /-- The sum from a column of the first type in the second type. -/
  floatSum : CudfTypeId → CudfTypeId → List V → V
  floatSum_singleton : ∀ type x, type = .float32 ∨ type = .float64 → floatSum type type [x] = x
  floatSum_eq_ofInt : ∀ input out vs, out ≠ .float32 → out ≠ .float64 →
    ∃ n, floatSum input out vs = ofInt (wrap out n)
  /-- What a scalar that is not valid holds. -/
  stale : V

structure Column (V : Type) where
  type : DataType
  values : List (Option V)
  deriving DecidableEq

/-- `cudf::scalar`, or a column with one row. -/
structure Scalar (V : Type) where
  type : DataType
  value : Option V
  deriving DecidableEq

/-- `cudf::reduce_aggregation`. COUNT leaves out NULLs, NTH_ELEMENT includes them. -/
inductive Reduction where
  | sum | min | max | count
  | nthElement (n : Nat)
  deriving DecidableEq, Repr

variable {V : Type}

def Payload.sum (P : Payload V) (input out : DataType) (vs : List V) : V :=
  if isFloat input || isFloat out then P.floatSum input.id out.id vs
  else P.ofInt (wrap out.id (vs.map P.toInt).sum)

/-- SUM leaves out NULLs, and is NULL if there is nothing else. -/
def Payload.sumOf (P : Payload V) (input out : DataType) (values : List (Option V)) : Option V :=
  if values.reduceOption = [] then none else some (P.sum input out values.reduceOption)

/-- SUM is there for numbers. A decimal is added in its own type. -/
def supportsSum (input out : DataType) : Bool :=
  if isDecimal input then input = out else isNumeric input && isNumeric out

/-- What the operators call of cuDF, by its documentation. SUM is there for the types above, MIN and MAX
do not convert, an element has to be there, and columns have to be of one type to be put together. -/
structure Cudf (V : Type) [LinearOrder V] extends Payload V where
  reduce : Column V → Reduction → DataType → Except Failure (Scalar V)
  reduce_sum_iff (col out s) : reduce col .sum out = .ok s ↔
    supportsSum col.type out ∧ ⟨out, toPayload.sumOf col.type out col.values⟩ = s
  reduce_min_iff (col out s) : reduce col .min out = .ok s ↔
    col.type = out ∧ ⟨out, minOf col.values⟩ = s
  reduce_max_iff (col out s) : reduce col .max out = .ok s ↔
    col.type = out ∧ ⟨out, maxOf col.values⟩ = s
  reduce_count (col out) : reduce col .count out =
    .ok ⟨out, some (ofInt (wrap out.id col.values.reduceOption.length))⟩
  reduce_nthElement_iff (col n out s) : reduce col (.nthElement n) out = .ok s ↔
    ∃ value, col.values[n]? = some value ∧ ⟨col.type, value⟩ = s
  concatenate : List (Scalar V) → Except Failure (Column V)
  concatenate_iff (scalars col) : concatenate scalars = .ok col ↔
    scalars ≠ [] ∧ (∀ s ∈ scalars, s.type = col.type) ∧ scalars.map (·.value) = col.values

variable [LinearOrder V]

/-- cuDF throws where it has no result. -/
def orThrow {α : Type} (c : Prop) [Decidable c] (a : α) : Except Failure α :=
  if c then .ok a else .error (.exception "cudf::logic_error")

theorem orThrow_eq_ok_iff {α : Type} {c : Prop} [Decidable c] {a b : α} :
    orThrow c a = .ok b ↔ c ∧ a = b := by
  unfold orThrow
  split <;> simp_all

def Payload.reference (P : Payload V) : Cudf V where
  toPayload := P
  reduce col agg out :=
    match agg with
    | .sum => orThrow (supportsSum col.type out) ⟨out, P.sumOf col.type out col.values⟩
    | .min => orThrow (col.type = out) ⟨out, minOf col.values⟩
    | .max => orThrow (col.type = out) ⟨out, maxOf col.values⟩
    | .count => .ok ⟨out, some (P.ofInt (wrap out.id col.values.reduceOption.length))⟩
    | .nthElement n => orThrow (n < col.values.length) ⟨col.type, col.values.getD n none⟩
  reduce_sum_iff _ _ _ := orThrow_eq_ok_iff
  reduce_min_iff _ _ _ := orThrow_eq_ok_iff
  reduce_max_iff _ _ _ := orThrow_eq_ok_iff
  reduce_count _ _ := rfl
  reduce_nthElement_iff col n out s := by
    simp only [orThrow_eq_ok_iff]
    grind
  concatenate scalars :=
    match scalars with
    | [] => .error (.exception "cudf::logic_error")
    | s :: rest => orThrow (∀ t ∈ rest, t.type = s.type) ⟨s.type, scalars.map (·.value)⟩
  concatenate_iff scalars col := by
    cases scalars with
    | nil => simp
    | cons s rest =>
      simp only [orThrow_eq_ok_iff]
      cases col
      grind

instance : Coe (Cudf V) (Payload V) := ⟨Cudf.toPayload⟩

variable (P : Cudf V)

def tableColumn (schema : List DataType) (rows : List (Row V)) (c : Nat) :
    Except Failure (Column V) :=
  match schema[c]? with
  | some type => .ok ⟨type, rows.map fun row => row.getD c none⟩
  | none => .error (.exception "vector::_M_range_check")

/-! ## The layout -/

structure UngroupedNode extends AggregateNode where
  returnType : LogicalType
  deriving DecidableEq, Repr

inductive AggregateKind where
  | sum | min | max | count | countStar | avg | first
  deriving DecidableEq, Repr

structure AggregateSpec where
  kind : AggregateKind
  /-- Not used by a COUNT(*), which has -1 here. -/
  inputIdx : Nat
  returnType : LogicalType
  localSumIdx : Nat
  /-- Only used by an AVG. -/
  localCountIdx : Nat
  deriving DecidableEq, Repr

structure AggregateLayout where
  aggregates : List AggregateSpec := []
  mergeKinds : List Reduction := []
  hasAvg : Bool := false
  deriving DecidableEq, Repr

def childRefIndex (aggr : UngroupedNode) : Except Failure Nat :=
  match aggr.arguments with
  | [] => .error .undefined
  | child :: _ => child.asReference

def requireChild (aggr : UngroupedNode) (name : String) : Except Failure Nat :=
  if aggr.arguments.isEmpty then
    .error (.exception (name ++ "() without arguments not supported"))
  else childRefIndex aggr

def UngroupedNode.input (aggr : UngroupedNode) :
    Except Failure (AggregateKind × Nat × LogicalType) :=
  match aggr.function with
  | .countStar => .ok (.countStar, 0, .make .bigint)
  | .count => do return (.count, ← requireChild aggr "count", .make .bigint)
  | .sum | .sumNoOverflow => do return (.sum, ← requireChild aggr "sum", aggr.returnType)
  | .min => do return (.min, ← requireChild aggr "min", aggr.returnType)
  | .max => do return (.max, ← requireChild aggr "max", aggr.returnType)
  | .avg => do return (.avg, ← requireChild aggr "avg", aggr.returnType)
  | .first => do return (.first, ← childRefIndex aggr, aggr.returnType)

/-- What the merge does with the partial columns of an aggregate. The index in `merge_nth_index` is
part of an NTH_ELEMENT. -/
def AggregateKind.mergeKinds : AggregateKind → List Reduction
  | .sum | .count | .countStar => [.sum]
  | .min => [.min]
  | .max => [.max]
  | .avg => [.sum, .sum]
  | .first => [.nthElement 0]

/-- One round of `build_aggregate_layout`. -/
def addAggregate (layout : AggregateLayout) (aggregate : Option UngroupedNode) :
    Except Failure AggregateLayout :=
  match aggregate with
  | none => .error (.exception "ungrouped aggregate: expected non-null aggregate node")
  | some aggr =>
    if aggr.distinct then
      .error (.exception "Distinct aggregates not supported in GPU path yet")
    else if 1 < aggr.arguments.length then
      .error (.exception "Aggregates with multiple children not supported yet")
    else do
      let (kind, inputIdx, returnType) ← aggr.input
      let localIdx := layout.mergeKinds.length
      return {
        aggregates := layout.aggregates ++ [⟨kind, inputIdx, returnType, localIdx, localIdx + 1⟩]
        mergeKinds := layout.mergeKinds ++ kind.mergeKinds
        hasAvg := layout.hasAvg || kind == .avg }

def buildAggregateLayout (aggregates : List (Option UngroupedNode)) :
    Except Failure AggregateLayout :=
  aggregates.foldlM addAggregate {}

/-! ## Partial results -/

def toCudfType (type : LogicalType) : Except Failure DataType :=
  match getCudfType type with
  | .ok type => .ok type
  | .error _ => .error (.exception "GetCudfType: Unsupported duckdb type")

def widenForSum (type : DataType) : DataType :=
  let type := if type.id = .decimal32 then ⟨.decimal64, type.scale⟩ else type
  if type.id = .decimal64 then ⟨.decimal128, type.scale⟩ else type

def widenForAvg (type : DataType) : DataType :=
  if type.id = .int8 ∨ type.id = .int16 ∨ type.id = .int32 then .make .int64 else type

/-- The type of the column that is reduced, and of the result. -/
def reductionTypes (kind : AggregateKind) (colType outType : DataType) : DataType × DataType :=
  let type := if kind = .sum then widenForSum colType else colType
  if isDecimal colType then (type, type)
  else if kind = .avg then (widenForAvg type, widenForAvg type)
  else (type, outType)

def AggregateKind.reduction : AggregateKind → Reduction
  | .min => .min
  | .max => .max
  | _ => .sum

def rowCount (rows : List (Row V)) : Scalar V :=
  ⟨.make .int64, some (P.ofInt (wrap .int64 rows.length))⟩

/-- The first element. `make_fixed_width_scalar` has no scalar for strings. -/
def firstElement (col : Column V) : Except Failure (Scalar V) :=
  match col.values with
  | [] =>
    if col.type.isFixedWidth then .ok ⟨col.type, none⟩ else .error (.exception "Invalid type.")
  | value :: _ => .ok ⟨col.type, value⟩

def AggregateSpec.localColumns (spec : AggregateSpec) (schema : List DataType)
    (rows : List (Row V)) : Except Failure (List (Scalar V)) :=
  match spec.kind with
  | .countStar => .ok [rowCount P rows]
  | .count => do
    let col ← tableColumn schema rows spec.inputIdx
    return [← P.reduce col .count (.make .int64)]
  | .first => do
    let col ← tableColumn schema rows spec.inputIdx
    return [← firstElement col]
  | kind => do
    let col ← tableColumn schema rows spec.inputIdx
    let (colType, outType) := reductionTypes kind col.type (← toCudfType spec.returnType)
    let scalar ← P.reduce ⟨colType, col.values⟩ kind.reduction outType
    return if kind = .avg then [scalar, rowCount P rows] else [scalar]

def AggregateLayout.localRow (layout : AggregateLayout) (schema : List DataType)
    (rows : List (Row V)) : Except Failure (List (Scalar V)) := do
  return (← layout.aggregates.mapM fun spec => spec.localColumns P schema rows).flatten

def ungroupedAggregateExecute (aggregates : List (Option UngroupedNode)) (schema : List DataType)
    (batches : List (List (Row V))) : Except Failure (List (List (Scalar V))) :=
  if aggregates.isEmpty then .ok [] else do
    let layout ← buildAggregateLayout aggregates
    batches.mapM fun rows => layout.localRow P schema rows

/-! ## The merge -/

def sumOutputType (type : DataType) : DataType :=
  match type.id with
  | .int8 | .int16 | .int32 => .make .int64
  | .uint8 | .uint16 | .uint32 => .make .uint64
  | _ => type

def mergeColumn (kind : Reduction) (col : Column V) : Except Failure (Scalar V) :=
  P.reduce col kind (if kind = .sum then sumOutputType col.type else col.type)

def partialColumn (input : List (List (Scalar V))) (c : Nat) : Except Failure (List (Scalar V)) :=
  input.mapM fun row => match row[c]? with
    | some scalar => .ok scalar
    | none => .error (.exception "vector::_M_range_check")

def mergeUngroupedAggregate (input : List (List (Scalar V))) (aggregates : List Reduction) :
    Except Failure (List (Scalar V)) :=
  if input.length < 2 then
    .error (.exception
      "`input` in `merge_ungrouped_aggregate()` should at least contain two data batches")
  else if (input.headD []).length ≠ aggregates.length then
    .error (.exception
      "mismatch between num columns and num aggregates in `merge_ungrouped_aggregate()`")
  else aggregates.zipIdx.mapM fun (kind, c) => do
    mergeColumn P kind (← P.concatenate (← partialColumn input c))

/-- A column of the result. The division of an AVG is not interpreted. -/
inductive Output (V : Type) where
  | column (scalar : Scalar V)
  | zero (returnType : LogicalType)
  | quotient (returnType : LogicalType) (sumType : DataType) (sum : V) (count : Int)
  deriving DecidableEq

def Scalar.read (s : Scalar V) : V := s.value.getD P.stale

/-- The types of a sum that `make_avg_column` reads. -/
def readsSum (type : DataType) : Bool :=
  isDecimal type || type.id ∈ [.float32, .float64, .int32, .int64]

/-- The types that `make_avg_column` has a result for. -/
def writesAverage (type : LogicalType) : Bool :=
  type.id = .decimal || type.id ∈ [.double, .float, .bigint, .hugeint, .integer]

def avgOperands (sum count : Scalar V) : Except Failure (Scalar V × Int) := do
  let sumValue ← P.reduce ⟨sum.type, [sum.value]⟩ .sum sum.type
  let countValue ← P.reduce ⟨count.type, [count.value]⟩ .sum (.make .int64)
  return (sumValue, P.toInt (countValue.read P))

def makeAvgColumn (sum count : Scalar V) (returnType : LogicalType) : Except Failure (Output V) := do
  let (sumValue, countHost) ← avgOperands P sum count
  if readsSum sum.type = false then
    .error (.exception "AVG: unsupported sum column type")
  else if writesAverage returnType = false then
    .error (.exception "AVG: unsupported return type")
  else if countHost = 0 then .ok (.zero returnType)
  else .ok (.quotient returnType sum.type (sumValue.read P) countHost)

def mergedColumn (merged : List (Scalar V)) (c : Nat) : Except Failure (Scalar V) :=
  match merged[c]? with
  | some scalar => .ok scalar
  | none => .error (.exception "vector::_M_range_check")

def AggregateSpec.output (spec : AggregateSpec) (merged : List (Scalar V)) :
    Except Failure (Output V) :=
  if spec.kind = .avg then do
    makeAvgColumn P (← mergedColumn merged spec.localSumIdx)
      (← mergedColumn merged spec.localCountIdx) spec.returnType
  else do return .column (← mergedColumn merged spec.localSumIdx)

/-- `merged_batch`. A single partial row is passed on. -/
def AggregateLayout.mergedRow (layout : AggregateLayout) (input : List (List (Scalar V))) :
    Except Failure (List (Scalar V)) :=
  match input with
  | [row] => .ok row
  | _ => mergeUngroupedAggregate P input layout.mergeKinds

def AggregateLayout.outputRow (layout : AggregateLayout) (merged : List (Scalar V)) :
    Except Failure (List (Output V)) :=
  if layout.hasAvg = false then .ok (merged.map .column)
  else layout.aggregates.mapM fun spec => spec.output P merged

/-- `sirius_physical_ungrouped_aggregate_merge::execute`: the batches of the result, which have one
row. -/
def ungroupedAggregateMergeExecute (aggregates : List (Option UngroupedNode))
    (input : List (List (Scalar V))) : Except Failure (List (List (Output V))) :=
  if aggregates.isEmpty || input.isEmpty then .ok [] else do
    let layout ← buildAggregateLayout aggregates
    let merged ← layout.mergedRow P input
    return [← layout.outputRow P merged]

def ungroupedAggregate (aggregates : List (Option UngroupedNode)) (schema : List DataType)
    (batches : List (List (Row V))) : Except Failure (List (List (Output V))) := do
  ungroupedAggregateMergeExecute P aggregates (← ungroupedAggregateExecute P aggregates schema batches)

end Sirius.Aggregate
