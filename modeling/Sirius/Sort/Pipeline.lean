import Mathlib.Algebra.Order.Ring.Nat
import Mathlib.Data.List.Perm.Basic
import Mathlib.Data.List.Sort
import Sirius.Lib.Runs
import Sirius.Lib.Slices
import Sirius.Sort.Order

/-!
# The sort pipelines

`split_order_by_sink` turns ORDER BY into three pipelines: ORDER sorts every batch, SORT_SAMPLE and
SORT_PARTITION cut the sorted batches at boundaries taken from a sample, MERGE_SORT merges. Tasks of
the second pipeline run side by side. The first one to reach SORT_SAMPLE computes the boundaries, the
others do not wait for it, so that some batches are cut and others are not.

SORT_PARTITION pushes its pieces as `sirius_physical_operator::sink` does, without a partition number.
They all land in partition 0 of the repository in front of MERGE_SORT, whatever range they belong to,
and one merge task takes them all.
-/

namespace Sirius.Sort

open Lib

variable {V : Type} [Ord V]

abbrev Batch (V : Type) := List (Row V)

def Precedes (indices : List Nat) (columns : List (CudfOrder × CudfNullOrder)) (r r' : Row V) : Prop :=
  (cudfCompareKeys columns (gather indices r) (gather indices r')).isLE

instance (indices : List Nat) (columns : List (CudfOrder × CudfNullOrder)) :
    DecidableRel (Precedes (V := V) indices columns) :=
  fun _ _ => inferInstanceAs (Decidable (_ = true))

instance [Std.TransOrd V] (indices : List Nat) (columns : List (CudfOrder × CudfNullOrder)) :
    Std.Total (Precedes (V := V) indices columns) where
  total a b := by
    unfold Precedes
    rw [← Std.OrientedCmp.isGE_iff_isLE (a := gather indices a)]
    cases cudfCompareKeys columns (gather indices a) (gather indices b) <;> simp

instance [Std.TransOrd V] (indices : List Nat) (columns : List (CudfOrder × CudfNullOrder)) :
    IsTrans (Row V) (Precedes indices columns) where
  trans _ _ _ := Std.TransCmp.isLE_trans

def SortedBy (indices : List Nat) (columns : List (CudfOrder × CudfNullOrder)) (rows : Batch V) :
    Prop :=
  rows.Pairwise (Precedes indices columns)

/-- Sorting and merging in cuDF: `sorted_order` with the `gather` after it, and `merge`. -/
structure Cudf (V : Type) [Ord V] where
  sort : List Nat → List (CudfOrder × CudfNullOrder) → Batch V → Batch V
  sort_perm (indices columns rows) : (sort indices columns rows).Perm rows
  sort_sorted (indices columns rows) : SortedBy indices columns (sort indices columns rows)
  merge : List Nat → List (CudfOrder × CudfNullOrder) → List (Batch V) → Batch V
  merge_perm (indices columns batches) : (merge indices columns batches).Perm batches.flatten
  merge_sorted (indices columns) {batches : List (Batch V)}
    (h : ∀ batch ∈ batches, SortedBy indices columns batch) :
    SortedBy indices columns (merge indices columns batches)

def Cudf.reference (V : Type) [Ord V] [Std.TransOrd V] : Cudf V where
  sort indices columns rows := rows.insertionSort (Precedes indices columns)
  sort_perm _ _ rows := rows.perm_insertionSort _
  sort_sorted _ _ rows := rows.pairwise_insertionSort _
  merge indices columns batches := batches.flatten.insertionSort (Precedes indices columns)
  merge_perm _ _ batches := batches.flatten.perm_insertionSort _
  merge_sorted _ _ batches _ := batches.flatten.pairwise_insertionSort _

/-- What the operators know: the LOGICAL_ORDER with the number of columns of its child, the settings
of the sample, and the size of a batch. -/
structure OrderBy (V : Type) where
  orders : List BoundOrderByNode
  projectionMap : List Nat
  width : Nat
  estimatedCardinality : Nat
  sortSampleBytes : Nat
  maxPartitionBytes : Nat
  bytes : Batch V → Nat

namespace OrderBy

variable (p : OrderBy V)

def projections : List Nat :=
  if p.projectionMap.isEmpty then List.range p.width else p.projectionMap

/-- `_final_projections`: ORDER keeps all columns, and MERGE_SORT makes its projection unless it is the
identity. -/
def finalProjections : List Nat :=
  if p.projections = List.range p.width then [] else p.projections

abbrev indices : List Nat := orderKeyIdx p.orders

abbrev columns : List (CudfOrder × CudfNullOrder) := cudfColumns p.orders

abbrev key (row : Row V) : Row V := gather p.indices row

abbrev Sorted (rows : Batch V) : Prop := SortedBy p.indices p.columns rows

end OrderBy

/-! ## The state -/

inductive BoundaryState where
  | notStarted
  | computing
  | done
  deriving DecidableEq, Repr

/-- A task is in front of SORT_SAMPLE, has won the election, or is in front of SORT_PARTITION. -/
inductive Stage where
  | sampling
  | computing
  | partitioning
  deriving DecidableEq, Repr

structure Task (V : Type) where
  batches : List (Batch V)
  stage : Stage := .sampling

/-- `input` are the batches in front of ORDER, `sorted` and `partitioned` the repositories in front of
SORT_SAMPLE and MERGE_SORT. `ready` counts the READY hints that the task creator has not followed
yet, and `failed` says that `cudf::slice` has thrown. -/
structure State (V : Type) where
  input : List (Batch V)
  sorted : List (Batch V) := []
  ready : Nat := 0
  tasks : List (Task V) := []
  boundaryState : BoundaryState := .notStarted
  numPartitions : Nat := 1
  boundaries : List (Row V) := []
  partitioned : List (Batch V) := []
  output : Option (List (Batch V)) := none
  failed : Bool := false

/-! ## The operators -/

section Operators

variable (cudf : Cudf V) (p : OrderBy V)

/-- `sirius_physical_order::execute` with the identity as projection -/
def order (batch : Batch V) : Batch V :=
  (cudf.sort p.indices p.columns batch).map (gather (List.range p.width))

def hasEnoughSampleBytes (accumulated : Nat) : List (Batch V) → Bool
  | [] => false
  | batch :: batches =>
    decide (accumulated + p.bytes batch ≥ p.sortSampleBytes) ||
      hasEnoughSampleBytes (accumulated + p.bytes batch) batches

/-- The first batches, until they have the size of a sample, and the others. -/
def popSample (accumulated : Nat) : List (Batch V) → List (Batch V) × List (Batch V)
  | [] => ([], [])
  | batch :: batches =>
    if accumulated + p.bytes batch ≥ p.sortSampleBytes then ([batch], batches)
    else
      let (sample, rest) := popSample (accumulated + p.bytes batch) batches
      (batch :: sample, rest)

/-- `get_next_task_hint` of SORT_SAMPLE. The producer is finished once ORDER has no batch left. -/
def nextTaskReady (s : State V) : Bool :=
  match s.boundaryState with
  | .done => !s.sorted.isEmpty
  | _ => s.input.isEmpty || hasEnoughSampleBytes p 0 s.sorted

def nextTaskInputData (s : State V) : List (Batch V) × List (Batch V) :=
  match s.boundaryState with
  | .done => (s.sorted.take 1, s.sorted.drop 1)
  | _ => popSample p 0 s.sorted

/-- The number of partitions, from a sample with `totalRows` rows. `memory` is the share of the
available memory, read when the sample is taken. -/
def numParts (memory : Nat) (batches : List (Batch V)) (totalRows : Nat) : Nat :=
  let avgBatchBytes := (batches.map p.bytes).sum / batches.length
  let avgRowsPerBatch := totalRows / batches.length
  if p.estimatedCardinality = 0 ∨ avgRowsPerBatch = 0 then 1
  else
    let totalBatchCount := (p.estimatedCardinality + avgRowsPerBatch - 1) / avgRowsPerBatch
    let estimatedTotalBytes := avgBatchBytes * totalBatchCount
    let maxPartitionBytes := if p.maxPartitionBytes > 0 then p.maxPartitionBytes else memory
    if maxPartitionBytes > 0 ∧ estimatedTotalBytes > maxPartitionBytes then
      (estimatedTotalBytes + maxPartitionBytes - 1) / maxPartitionBytes
    else 1

def mergedSample (batches : List (Batch V)) : Batch V :=
  match batches with
  | [batch] => batch
  | batches => cudf.merge p.indices p.columns batches

def boundaryIndex (parts totalRows i : Nat) : Nat :=
  if i * totalRows / parts ≥ totalRows then totalRows - 1 else i * totalRows / parts

/-- Keys at equal distances in the sample. -/
def boundaryKeys (parts : Nat) (sample : Batch V) : List (Row V) :=
  (List.range' 1 (parts - 1)).map fun i =>
    p.key (sample.getD (boundaryIndex parts sample.length i) [])

/-- The part of `sirius_physical_sort_sample::execute` after the election -/
def computeBoundaries (memory : Nat) (batches : List (Batch V)) (s : State V) : State V :=
  if batches.isEmpty then { s with boundaryState := .done }
  else
    let sample := mergedSample cudf p batches
    let parts := numParts p memory batches sample.length
    if parts ≤ 1 ∨ sample.length = 0 then
      { s with boundaryState := .done, numPartitions := 1, boundaries := [] }
    else
      { s with
        boundaryState := .done
        numPartitions := parts
        boundaries := boundaryKeys p parts sample }

/-- `cudf::lower_bound`: the first row that is not before the boundary. -/
def lowerBound (batch : Batch V) (boundary : Row V) : Nat :=
  (batch.takeWhile fun row => (cudfCompareKeys p.columns (p.key row) boundary).isLT).length

/-- The pieces of a sorted batch between the boundaries, without the empty ones. -/
def cutBatch (boundaries : List (Row V)) (batch : Batch V) : Option (List (Batch V)) :=
  if batch.isEmpty then some []
  else (slices batch 0 (boundaries.map (lowerBound p batch))).map fun pieces =>
    pieces.filter fun piece => !piece.isEmpty

/-- SORT_PARTITION cuts the batches at the boundaries, and passes them on if there is one partition. -/
def sortPartition (s : State V) (batches : List (Batch V)) : Option (List (Batch V)) :=
  if s.boundaryState ≠ .done ∨ s.numPartitions ≤ 1 then some batches
  else (batches.mapM (cutBatch p s.boundaries)).map List.flatten

/-- `apply_final_projection`, which is skipped if there is none. -/
def finalProjection (batch : Batch V) : Batch V :=
  if p.finalProjections.isEmpty then batch else batch.map (gather p.finalProjections)

/-- MERGE_SORT, which makes one sorted batch of all. -/
def mergeSort (batches : List (Batch V)) : List (Batch V) :=
  match batches with
  | [] => []
  | [batch] => [finalProjection p batch]
  | batches => [finalProjection p (cudf.merge p.indices p.columns batches)]

end Operators

/-! ## Steps -/

/-- The tasks of ORDER, the task creator at SORT_SAMPLE, the tasks of the second pipeline, and the
merge task. Tasks are taken in any order. -/
inductive Label where
  | order (i : Nat)
  | hint
  | create
  | sample (i : Nat)
  | compute (i memory : Nat)
  | reschedule (i : Nat)
  | partition (i : Nat)
  | merge
  deriving DecidableEq, Repr

namespace State

variable (s : State V)

/-- Where a task goes from SORT_SAMPLE: past it, unless it wins the election. -/
def elect (i : Nat) (t : Task V) : State V :=
  match s.boundaryState with
  | .notStarted =>
    { s with boundaryState := .computing, tasks := s.tasks.set i { t with stage := .computing } }
  | .computing | .done => { s with tasks := s.tasks.set i { t with stage := .partitioning } }

/-- The barrier in front of MERGE_SORT: the pipelines before it are finished. -/
def upstreamFinished : Bool := s.input.isEmpty && s.sorted.isEmpty && s.tasks.isEmpty

end State

def step (cudf : Cudf V) (p : OrderBy V) (s : State V) : Label → Option (State V)
  | .order i => do
    let batch ← s.input[i]?
    some { s with input := s.input.eraseIdx i, sorted := s.sorted ++ [order cudf p batch] }
  | .hint => if nextTaskReady p s then some { s with ready := s.ready + 1 } else none
  | .create =>
    if s.ready = 0 then none
    else
      let (batches, rest) := nextTaskInputData p s
      some { s with
        ready := s.ready - 1
        sorted := rest
        tasks := if batches.isEmpty then s.tasks else s.tasks ++ [{ batches }] }
  | .sample i => do
    let t ← s.tasks[i]?
    if t.stage = .sampling then some (s.elect i t) else none
  | .compute i memory => do
    let t ← s.tasks[i]?
    if t.stage = .computing then
      some (computeBoundaries cudf p memory t.batches
        { s with tasks := s.tasks.set i { t with stage := .partitioning } })
    else none
  | .reschedule i => do
    -- out of memory: the task starts again, and an open election is given up
    let t ← s.tasks[i]?
    some { s with
      boundaryState := if t.stage = .computing then .notStarted else s.boundaryState
      tasks := s.tasks.set i { t with stage := .sampling } }
  | .partition i => do
    let t ← s.tasks[i]?
    if t.stage = .partitioning then
      match sortPartition p s t.batches with
      | some batches => some { s with
          tasks := s.tasks.eraseIdx i, partitioned := s.partitioned ++ batches }
      | none => some { s with tasks := s.tasks.eraseIdx i, failed := true }
    else none
  | .merge =>
    if s.upstreamFinished && s.output.isNone then
      some { s with partitioned := [], output := some (mergeSort cudf p s.partitioned) }
    else none

end Sirius.Sort
