import Mathlib.Data.BitVec
import Sirius.Aggregate.Definitions
import Sirius.Expression.Node
import Sirius.Lib.Grouping
import Sirius.Sort.Order

/-!
# Grouped aggregation

A grouped aggregation runs in three operators: HASH_GROUP_BY aggregates every batch, PARTITION cuts
the results by a hash of the group keys, and MERGE_GROUP_BY aggregates the partial results of one
partition once more and computes the final columns.

The first operator hands cuDF one request for each input column, with all aggregations of that column,
and puts the results back into the order of the aggregates (`localCells`). A COUNT(DISTINCT (a, b)) has
no input column; its request has a number below 0, from which the entry is found again.

The type of a column matters for SUM: cuDF adds DECIMAL32 values in 32 bits, and the operator widens the
result afterwards.
-/

namespace Sirius.Aggregate

open Lib
open Sirius.Expression (CudfTypeId)
open Sirius.Sort (Row gather)

variable {V : Type} [LinearOrder V]

/-! ## Columns and aggregations of cuDF -/

/-- An element of a column: NULL, a value, or a struct of values. A value is a struct of one. -/
abbrev Element (V : Type) := Option (Row V)

def valueElement (v : Option V) : Element V := v.map fun x => [some x]

def Element.value : Element V → Option V
  | some [v] => v
  | _ => none

/-- A cell of a result: a value, a 64 bit number, a LIST of distinct elements, or the quotient of an
AVG. -/
inductive Cell (V : Type) where
  | value (v : Option V)
  | number (n : Option (BitVec 64))
  | list (elements : Finset (Row V))
  | quotient (sum count : Option (BitVec 64))
  deriving DecidableEq

namespace Cell

def asValue : Cell V → Option V
  | .value v => v
  | _ => none

def asNumber : Cell V → Option (BitVec 64)
  | .number n => n
  | _ => none

def asList : Cell V → Finset (Row V)
  | .list elements => elements
  | _ => ∅

instance : Inhabited (Cell V) := ⟨.value none⟩

end Cell

/-- SUM ignores NULLs, and is NULL if there is nothing else. It wraps around. -/
def sumOf {w : Nat} (ns : List (Option (BitVec w))) : Option (BitVec w) :=
  ns.foldr (Option.merge (· + ·)) none

/-- SUM of a column, from the 64 bits of its numbers. A sum of DECIMAL32 values is cast to DECIMAL64 when
it is there; all other sums have 64 bits or more. -/
def sumIn (type : CudfTypeId) (ns : List (Option (BitVec 64))) : Option (BitVec 64) :=
  if type = .decimal32 then (sumOf (ns.map (·.map (BitVec.setWidth 32)))).map (BitVec.signExtend 64)
  else sumOf ns

def minOf (vs : List (Option V)) : Option V := vs.foldr (Option.merge min) none

def maxOf (vs : List (Option V)) : Option V := vs.foldr (Option.merge max) none

def setOf (es : List (Element V)) : Finset (Row V) := es.reduceOption.toFinset

def countValid (es : List (Element V)) : BitVec 64 := .ofNat 64 (es.countP Option.isSome)

section Operators

variable (bits : V → BitVec 64)

/-- `get_local_aggregation`, or `make_collect_set_aggregation` without NULLs, on the elements of a
group. `bits` is the number that SUM reads, `type` the type of the column. -/
def localAggregation (type : CudfTypeId) (kind : Kind) (es : List (Element V)) : Cell V :=
  match kind with
  | .sum => .number (sumIn type (es.map fun e => e.value.map bits))
  | .countValid => .number (some (countValid es))
  | .countAll => .number (some (.ofNat 64 es.length))
  | .min => .value (minOf (es.map Element.value))
  | .max => .value (maxOf (es.map Element.value))
  | .collectSet => .list (setOf es)

def mergeAggregation (kind : Kind) (cells : List (Cell V)) : Cell V :=
  match kind with
  | .sum | .countValid | .countAll => .number (sumOf (cells.map Cell.asNumber))
  | .min => .value (minOf (cells.map Cell.asValue))
  | .max => .value (maxOf (cells.map Cell.asValue))
  | .collectSet => .list ((cells.map Cell.asList).foldr (· ∪ ·) ∅)

/-! ## HASH_GROUP_BY -/

structure Request where
  columnId : Int
  outputIdx : List Nat
  deriving DecidableEq, Repr

/-- `aggregate_col_id` of entry `i`: its column, or a number of its own for a struct. -/
def CudfAggregate.columnId (e : CudfAggregate) (i : Nat) : Int :=
  if e.structColIndices.isEmpty then e.idx else -(i + 1)

def addRequest (requests : List Request) (columnId : Int) (i : Nat) : List Request :=
  if requests.any (·.columnId = columnId) then
    requests.map fun r => if r.columnId = columnId then { r with outputIdx := r.outputIdx ++ [i] } else r
  else requests ++ [⟨columnId, [i]⟩]

/-- One request for each column, with the places of its results. -/
def makeRequests (entries : List CudfAggregate) : List Request :=
  entries.zipIdx.foldl (fun requests e => addRequest requests (e.1.columnId e.2) e.2) []

def requestColumn (entries : List CudfAggregate) (columnId : Int) (rows : List (Row V)) :
    List (Element V) :=
  if columnId < 0 then
    let structIndices := (entries[(-columnId - 1).toNat]?.map (·.structColIndices)).getD []
    rows.map fun row => some (gather structIndices row)
  else rows.map fun row => valueElement (row.getD columnId.toNat none)

variable (types : Nat → CudfTypeId)

def requestType (columnId : Int) : CudfTypeId := if columnId < 0 then .struct else types columnId.toNat

def requestResults (entries : List CudfAggregate) (rows : List (Row V)) (r : Request) :
    List (Nat × Cell V) :=
  r.outputIdx.map fun i => (i, localAggregation bits (requestType types r.columnId)
    ((entries[i]?.map (·.kind)).getD .sum) (requestColumn entries r.columnId rows))

/-- The aggregate columns for one group. A place without a result would be a null column. -/
def localCells (entries : List CudfAggregate) (rows : List (Row V)) :
    Except Failure (List (Cell V)) :=
  let results := (makeRequests entries).flatMap (requestResults bits types entries rows)
  let outputCols := results.foldl (fun cols r => cols.set r.1 (some r.2))
    (List.replicate entries.length none)
  match outputCols.mapM id with
  | some cells => .ok cells
  | none => .error .undefined

abbrev ResultRow (V : Type) := Row V × List (Cell V)

/-- `local_grouped_aggregate`. NULL keys are equal to each other. -/
def localGroupedAggregate (d : DistinctKeys (Row V)) (defs : CudfAggregateDefinitions)
    (rows : List (Row V)) : Except Failure (List (ResultRow V)) :=
  (groupBy d (gather defs.groupIdx) (localCells bits types defs.cudfAggregates) rows).mapM
    fun r => r.2.map fun cells => (r.1, cells)

/-! ## PARTITION -/

def partitionCount (defs : CudfAggregateDefinitions) (numPartitions : Nat) : Nat :=
  if numPartitions < 2 ∨ defs.groupIdx = [] then 1 else numPartitions

def partitionOf (defs : CudfAggregateDefinitions) (hash : Row V → Nat) (numPartitions : Nat)
    (key : Row V) : Nat :=
  hash key % partitionCount defs numPartitions

/-- The part of a batch that is pushed into partition `i`. -/
def hashPartition (defs : CudfAggregateDefinitions) (hash : Row V → Nat) (numPartitions i : Nat)
    (rows : List (ResultRow V)) : List (ResultRow V) :=
  rows.filter fun row => partitionOf defs hash numPartitions row.1 = i

/-! ## MERGE_GROUP_BY -/

def mergeCells (entries : List CudfAggregate) (rows : List (List (Cell V))) : List (Cell V) :=
  entries.zipIdx.map fun e => mergeAggregation e.1.kind (rows.map fun cells => cells.getD e.2 default)

def mergeGroupedAggregate (d : DistinctKeys (Row V)) (defs : CudfAggregateDefinitions)
    (batches : List (List (ResultRow V))) : Except Failure (List (ResultRow V)) :=
  if batches.length < 2 then .error (.exception
    "`input` in `merge_grouped_aggregate()` should at least contain two data batches")
  else .ok (mergeBy d (mergeCells defs.cudfAggregates) batches.flatten)

/-- The quotient of an AVG, the size of the set of a COUNT(DISTINCT ..), or the merged column. -/
def AggregateSlot.output (slot : AggregateSlot) (cells : List (Cell V)) : Cell V :=
  if slot.isAvg then
    .quotient (cells.getD slot.cudfIdx default).asNumber (cells.getD (slot.cudfIdx + 1) default).asNumber
  else if slot.isCountDistinct then
    .number (some (.ofNat 64 (cells.getD slot.cudfIdx default).asList.card))
  else cells.getD slot.cudfIdx default

def CudfAggregateDefinitions.project (defs : CudfAggregateDefinitions) (rows : List (ResultRow V)) :
    List (ResultRow V) :=
  rows.map fun row => (row.1, defs.aggregateSlots.map fun slot => slot.output row.2)

/-- `grouped_aggregate_merge::execute`. A single batch is not merged, and without an AVG or a
COUNT(DISTINCT ..) the columns stay as they are. -/
def mergeExecute (d : DistinctKeys (Row V)) (defs : CudfAggregateDefinitions)
    (batches : List (List (ResultRow V))) : Except Failure (List (ResultRow V)) :=
  match batches with
  | [] => .error (.exception
      "We expect at least one input batch for grouped aggregate merge operator")
  | [batch] =>
    if !defs.hasAvg && !defs.hasCountDistinct then .ok batch else .ok (defs.project batch)
  | batches => do
    let merged ← mergeGroupedAggregate d defs batches
    if !defs.hasAvg && !defs.hasCountDistinct then return merged else return defs.project merged

/-- The task of a partition; there is none without a batch. -/
def mergeTask (d : DistinctKeys (Row V)) (defs : CudfAggregateDefinitions)
    (batches : List (List (ResultRow V))) : Except Failure (List (ResultRow V)) :=
  if batches.isEmpty then .ok [] else mergeExecute d defs batches

end Operators

end Sirius.Aggregate
