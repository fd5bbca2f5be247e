import Sirius.Join.PairTasks

/-!
# The repositories of a join while its tasks are created

`get_next_task_input_data` of the hash join (`src/op/sirius_physical_hash_join.cpp`, outside of
build-probe mode) and of the nested-loop join (`src/op/sirius_physical_nested_loop_join.cpp`) note the
batch ids of both ports at the first call. Every call then takes the pair at its index of the grid
partition × left × right from the repositories. A left batch is popped with the last right batch of its
partition and a right batch with the last left one; otherwise a batch is only read.

The batches of a partition are handed out in order, so that before the call with index `k` the left
repository has lost the first `(k - start) / rights` batches of a partition, and the right one those
that the last left batch has met. From this follows what each call finds (`enumerates`).
-/

namespace Sirius.PairJoin

open List
open Option (map_some)

open Join

/-! ## Positions in the grid -/

section

variable {A B : Type}

def start (parts : List (List A × List B)) (i : Nat) : Nat := numPairs (parts.take i)

variable {parts : List (List A × List B)} {i : Nat} {lefts : List A} {rights : List B} {j a b : Nat}

theorem start_succ (hi : parts[i]? = some (lefts, rights)) :
    start parts (i + 1) = start parts i + lefts.length * rights.length := by
  rw [start, start, take_add_one, hi, numPairs, numPairs, map_append, sum_append]
  simp

theorem start_mono (parts : List (List A × List B)) (h : i ≤ j) :
    start parts i ≤ start parts j := by
  obtain ⟨k, rfl⟩ := Nat.exists_eq_add_of_le h
  rw [start, start, take_add, numPairs, numPairs, map_append, sum_append]
  exact Nat.le_add_right ..

theorem getElem?_pairs_of_partition (lefts : List A) (rights : List B) (hb : b < rights.length) :
    (lefts.flatMap fun left => rights.map fun right => (left, right))[a * rights.length + b]? =
      lefts[a]?.bind fun left => rights[b]?.map fun right => (left, right) := by
  induction lefts generalizing a with
  | nil => simp
  | cons left lefts ih =>
    rw [flatMap_cons]
    cases a with
    | zero =>
      rw [getElem?_append_left (by simpa using hb)]
      simp
    | succ a =>
      have hindex : (a + 1) * rights.length + b - rights.length = a * rights.length + b := by
        rw [Nat.succ_mul]
        omega
      rw [getElem?_append_right (by rw [length_map, Nat.succ_mul]; omega), length_map,
        hindex, ih, getElem?_cons_succ]

/-- The pair of the left batch `a` and the right batch `b` of partition `i`. -/
theorem getElem?_grid {left : A} {right : B} (hi : parts[i]? = some (lefts, rights))
    (ha : lefts[a]? = some left) (hb : rights[b]? = some right) :
    (grid parts)[start parts i + a * rights.length + b]? = some (left, right) := by
  obtain ⟨hi', hpart⟩ := List.getElem?_eq_some_iff.1 hi
  have hblen : b < rights.length := (List.getElem?_eq_some_iff.1 hb).1
  have hsplit : grid parts = grid (parts.take i) ++
      ((lefts.flatMap fun left => rights.map fun right => (left, right)) ++
        grid (parts.drop (i + 1))) := by
    conv_lhs => rw [← List.take_append_drop i parts, List.drop_eq_getElem_cons hi', hpart]
    simp [grid]
  have hat : (lefts.flatMap fun left => rights.map fun right => (left, right))[a * rights.length + b]? =
      some (left, right) := by
    rw [getElem?_pairs_of_partition lefts rights hblen, ha, hb]
    rfl
  have hin := (List.getElem?_eq_some_iff.1 hat).1
  rw [hsplit, Nat.add_assoc, start, ← length_grid,
    List.getElem?_append_right (Nat.le_add_right ..), Nat.add_sub_cancel_left,
    List.getElem?_append_left hin, hat]

theorem exists_position {k : Nat} (hk : k < numPairs parts) :
    ∃ i lefts rights a b, parts[i]? = some (lefts, rights) ∧ a < lefts.length ∧ b < rights.length ∧
      k = start parts i + a * rights.length + b := by
  induction parts generalizing k with
  | nil => simp [numPairs] at hk
  | cons part parts ih =>
    obtain ⟨lefts, rights⟩ := part
    have hsum : numPairs ((lefts, rights) :: parts) = lefts.length * rights.length + numPairs parts := by
      simp [numPairs]
    by_cases hin : k < lefts.length * rights.length
    · have hpos : 0 < rights.length := by
        apply Nat.pos_of_ne_zero
        intro hzero
        simp [hzero] at hin
      refine ⟨0, lefts, rights, k / rights.length, k % rights.length, rfl,
        (Nat.div_lt_iff_lt_mul hpos).2 hin, Nat.mod_lt _ hpos, ?_⟩
      rw [start, take_zero, Nat.mul_comm]
      simp [numPairs, Nat.div_add_mod]
    · obtain ⟨i, lefts', rights', a, b, hi, ha, hb, hindex⟩ :=
        ih (k := k - lefts.length * rights.length) (by omega)
      refine ⟨i + 1, lefts', rights', a, b, hi, ha, hb, ?_⟩
      have hstart : start ((lefts, rights) :: parts) (i + 1) =
          lefts.length * rights.length + start parts i := by
        simp [start, numPairs]
      rw [hstart]
      omega

/-- Where a position stands among all partitions: its own is under way, those before are used up and
those behind untouched. -/
theorem start_of_position {lefts' : List A} {rights' : List B}
    (hi : parts[i]? = some (lefts, rights)) (hj : parts[j]? = some (lefts', rights'))
    (ha : a < lefts.length) (hb : b < rights.length) :
    (j < i → start parts j + lefts'.length * rights'.length ≤
      start parts i + a * rights.length + b) ∧
    (i < j → start parts i + a * rights.length + b < start parts j) := by
  constructor
  · intro hlt
    have h := start_mono parts (Nat.succ_le_of_lt hlt)
    rw [Nat.succ_eq_add_one, start_succ hj] at h
    omega
  · intro hlt
    have h := start_mono parts (Nat.succ_le_of_lt hlt)
    rw [Nat.succ_eq_add_one, start_succ hi] at h
    have hrow : a * rights.length + rights.length ≤ lefts.length * rights.length := by
      rw [← Nat.succ_mul]
      exact Nat.mul_le_mul_right _ ha
    omega

end

/-! ## Repositories -/

structure Batch (D : Type) where
  id : Nat
  data : D
  deriving DecidableEq, Repr

/-- A data repository. No two batches of a partition have the same id. -/
structure Repository (D : Type) where
  partitions : List (List (Batch D))
  distinct : ∀ batches ∈ partitions, (batches.map Batch.id).Nodup

variable {D : Type}

namespace Repository

def numPartitions (repo : Repository D) : Nat := repo.partitions.length

def batches (repo : Repository D) (i : Nat) : List (Batch D) := repo.partitions[i]?.getD []

def getBatchIds (repo : Repository D) (i : Nat) : List Nat := (repo.batches i).map Batch.id

def getDataBatchById (repo : Repository D) (id i : Nat) : Option (Batch D) :=
  (repo.batches i).find? fun batch => batch.id = id

def remove (repo : Repository D) (id i : Nat) : Repository D where
  partitions := repo.partitions.modify i fun batches => batches.eraseP fun batch => batch.id = id
  distinct := by
    intro batches hmem
    obtain ⟨j, hj⟩ := List.mem_iff_getElem?.1 hmem
    rw [List.getElem?_modify] at hj
    obtain ⟨old, hold, rfl⟩ := Option.map_eq_some_iff.1 hj
    have hdistinct := repo.distinct old (List.mem_of_getElem? hold)
    split
    · exact hdistinct.sublist ((List.eraseP_sublist ..).map _)
    · exact hdistinct

/-- `pop_data_batch_by_id` if `pop`, else `get_data_batch_by_id`. -/
def fetch (repo : Repository D) (pop : Bool) (id i : Nat) : Option (Batch D) × Repository D :=
  (repo.getDataBatchById id i, if pop then repo.remove id i else repo)

end Repository

/-! ## The operators -/

/-- The members of the operator that `get_next_task_input_data` uses, with the repositories of its two
ports. -/
structure State (D : Type) where
  default : Repository D
  build : Repository D
  leftBatchIds : List (List Nat) := []
  rightBatchIds : List (List Nat) := []
  numBatchesToProcess : Nat := 0
  currentPartitionIndex : Nat := 0

/-- The input of a task: batch pointers, which may be null, and the partition of partitioned data. -/
structure OperatorData (D : Type) where
  batches : List (Option (Batch D))
  partitionIdx : Option Nat
  deriving DecidableEq, Repr

structure LeftSlot where
  partition : Nat
  counter : Nat
  id : Nat
  deriving DecidableEq, Repr

structure RightSlot where
  counter : Nat
  id : Nat
  deriving DecidableEq, Repr

def slots (leftBatchIds rightBatchIds : List (List Nat)) : List (List LeftSlot × List RightSlot) :=
  (leftBatchIds.zip rightBatchIds).zipIdx.map fun (ids, i) =>
    (ids.1.zipIdx.map fun (id, counter) => ⟨i, counter, id⟩,
      ids.2.zipIdx.map fun (id, counter) => ⟨counter, id⟩)

namespace State

def snapshot (s : State D) : State D :=
  { s with
    leftBatchIds := (List.range s.default.numPartitions).map s.default.getBatchIds
    rightBatchIds := (List.range s.default.numPartitions).map s.build.getBatchIds
    numBatchesToProcess := s.numBatchesToProcess +
      ((List.range s.default.numPartitions).map fun i =>
        (s.default.getBatchIds i).length * (s.build.getBatchIds i).length).sum }

/-- The body of the innermost loop, when the counter has reached the index of the call. -/
def take (s : State D) (left : LeftSlot) (right : RightSlot) : State D × List (Option (Batch D)) :=
  let rights := s.rightBatchIds[left.partition]?.getD []
  let lefts := s.leftBatchIds[left.partition]?.getD []
  let (leftBatch, default) :=
    s.default.fetch (right.counter = rights.length - 1) left.id left.partition
  let (rightBatch, build) :=
    s.build.fetch (left.counter = lefts.length - 1) right.id left.partition
  ({ s with
     default := default
     build := build
     currentPartitionIndex := s.currentPartitionIndex + 1 }, [leftBatch, rightBatch])

def nextPair (wrap : Nat → List (Option (Batch D)) → OperatorData D) (s : State D) :
    State D × Option (OperatorData D) :=
  if s.numBatchesToProcess ≤ s.currentPartitionIndex then (s, none)
  else
    match walkPartitions s.currentPartitionIndex 0 (slots s.leftBatchIds s.rightBatchIds) with
    | .inl _ => ({ s with currentPartitionIndex := s.currentPartitionIndex + 1 }, none)
    | .inr (left, right) =>
      let (s, batches) := s.take left right
      (s, some (wrap left.partition batches))

end State

/-- `get_next_task_input_data` of both joins, with the text of the exception for ports of different
numbers of partitions and the kind of data returned. -/
def nextTaskInputData (mismatch : String) (wrap : Nat → List (Option (Batch D)) → OperatorData D)
    (s : State D) : Except String (State D × Option (OperatorData D)) :=
  if s.leftBatchIds = [] ∧ s.rightBatchIds = [] then
    if s.default.numPartitions ≠ s.build.numPartitions then .error mismatch
    else .ok (s.snapshot.nextPair wrap)
  else .ok (s.nextPair wrap)

def partitionedOperatorData (partition : Nat) (batches : List (Option (Batch D))) : OperatorData D :=
  ⟨batches, some partition⟩

def pipelineableOperatorData (_partition : Nat) (batches : List (Option (Batch D))) :
    OperatorData D :=
  ⟨batches, none⟩

/-- `sirius_physical_hash_join::get_next_task_input_data` outside of build-probe mode. -/
def hashJoinNextTaskInputData (operatorId : Nat) :
    State D → Except String (State D × Option (OperatorData D)) :=
  nextTaskInputData ("In sirius_physical_hash_join:Number of partitions for left and right ports must " ++
    "be the same in operator " ++ toString operatorId) partitionedOperatorData

def nestedLoopJoinNextTaskInputData : State D → Except String (State D × Option (OperatorData D)) :=
  nextTaskInputData ("sirius_physical_nested_loop_join: number of partitions for default and build " ++
    "ports must match") pipelineableOperatorData

def runCalls (next : State D → Except String (State D × Option (OperatorData D))) (s : State D) :
    Nat → Except String (State D × List (Option (OperatorData D)))
  | 0 => .ok (s, [])
  | n + 1 => do
    let (s, outputs) ← runCalls next s n
    let (s, output) ← next s
    return (s, outputs ++ [output])

/-! ## Layouts -/

structure Partition (D : Type) where
  left : List (Batch D)
  right : List (Batch D)
  left_ne_nil : left ≠ []
  right_ne_nil : right ≠ []
  left_distinct : (left.map Batch.id).Nodup
  right_distinct : (right.map Batch.id).Nodup

/-- The operator before the first call, when its ports hold the batches of the layout. -/
def State.init (layout : List (Partition D)) : State D where
  default.partitions := layout.map Partition.left
  default.distinct := by
    intro batches hmem
    obtain ⟨p, -, rfl⟩ := List.mem_map.1 hmem
    exact p.left_distinct
  build.partitions := layout.map Partition.right
  build.distinct := by
    intro batches hmem
    obtain ⟨p, -, rfl⟩ := List.mem_map.1 hmem
    exact p.right_distinct

def sides (layout : List (Partition D)) : List (List (Batch D) × List (Batch D)) :=
  layout.map fun p => (p.left, p.right)

/-- The left and right batches of the same partition in the order of the loops, with the partition. -/
def pairs (layout : List (Partition D)) : List ((Nat × Batch D) × Batch D) :=
  grid (layout.zipIdx.map fun (p, i) => (p.left.map (Prod.mk i), p.right))

/-- The batches of partition `i` that the calls from index `k` on still need. -/
def leftsFrom (layout : List (Partition D)) (k i : Nat) (p : Partition D) : List (Batch D) :=
  p.left.drop ((k - start (sides layout) i) / p.right.length)

def rightsFrom (layout : List (Partition D)) (k i : Nat) (p : Partition D) : List (Batch D) :=
  p.right.drop (k - start (sides layout) i - (p.left.length - 1) * p.right.length)

/-- The call with index `k` is that of the left batch `a` and the right batch `b` of partition `i`. -/
structure Position (layout : List (Partition D)) (k i : Nat) (p : Partition D) (a b : Nat) : Prop where
  partition : layout[i]? = some p
  left : a < p.left.length
  right : b < p.right.length
  index : k = start (sides layout) i + a * p.right.length + b

/-- The state before the call with index `k`, behind its initialization. -/
structure Ready (layout : List (Partition D)) (k : Nat) (s : State D) : Prop where
  leftIds : s.leftBatchIds = layout.map fun p => p.left.map Batch.id
  rightIds : s.rightBatchIds = layout.map fun p => p.right.map Batch.id
  count : s.numBatchesToProcess = numPairs (sides layout)
  current : s.currentPartitionIndex = k
  default : ∀ i, s.default.partitions[i]? = layout[i]?.map (leftsFrom layout k i)
  build : ∀ i, s.build.partitions[i]? = layout[i]?.map (rightsFrom layout k i)

/-! ## What the calls from an index on need -/

section

variable {layout : List (Partition D)} {k i a b : Nat} {p : Partition D}

theorem getElem?_sides (layout : List (Partition D)) (i : Nat) :
    (sides layout)[i]? = layout[i]?.map fun p => (p.left, p.right) :=
  getElem?_map ..

theorem exists_position_of_lt (hk : k < numPairs (sides layout)) :
    ∃ i p a b, Position layout k i p a b := by
  obtain ⟨i, lefts, rights, a, b, hi, ha, hb, hindex⟩ := exists_position hk
  rw [getElem?_sides] at hi
  obtain ⟨p, hp, hsides⟩ := Option.map_eq_some_iff.1 hi
  cases hsides
  exact ⟨i, p, a, b, hp, ha, hb, hindex⟩

namespace Position

section

variable (h : Position layout k i p a b)

include h

theorem sides_eq : (sides layout)[i]? = some (p.left, p.right) := by
  rw [getElem?_sides, h.partition]
  rfl

theorem lt_numPairs : k < numPairs (sides layout) := by
  rw [h.index, ← length_grid]
  exact (List.getElem?_eq_some_iff.1 (getElem?_grid h.sides_eq
    (getElem?_eq_getElem h.left) (getElem?_eq_getElem h.right))).1

theorem leftsFrom_eq : leftsFrom layout k i p = p.left.drop a := by
  rw [leftsFrom, h.index, Nat.add_assoc, Nat.add_sub_cancel_left, Nat.mul_comm,
    Nat.mul_add_div (Nat.zero_lt_of_lt h.right), Nat.div_eq_of_lt h.right, Nat.add_zero]

/-- A row of the grid ends with the last right batch. -/
theorem leftsFrom_succ :
    leftsFrom layout (k + 1) i p = p.left.drop (if b = p.right.length - 1 then a + 1 else a) := by
  have hright := h.right
  have hindex : k + 1 - start (sides layout) i = p.right.length * a + (b + 1) := by
    rw [h.index, Nat.mul_comm]
    omega
  rw [leftsFrom, hindex, Nat.mul_add_div (by omega)]
  split
  · have hlast : b + 1 = p.right.length := by omega
    rw [hlast, Nat.div_self (by omega)]
  · rw [Nat.div_eq_of_lt (by omega), Nat.add_zero]

end

variable {c : Nat}

section

variable (h : Position layout k i p a b) {j : Nat}

include h

/-- The right batches stay until the last row of the grid, which uses them up one by one. -/
theorem rightsFrom_row (hc : c ≤ p.right.length) :
    rightsFrom layout (start (sides layout) i + a * p.right.length + c) i p =
      p.right.drop (if a = p.left.length - 1 then c else 0) := by
  rw [rightsFrom, Nat.add_assoc, Nat.add_sub_cancel_left]
  split
  next hlast =>
    rw [hlast, Nat.add_sub_cancel_left]
  · have hrow : a * p.right.length + p.right.length ≤ (p.left.length - 1) * p.right.length := by
      rw [← Nat.succ_mul]
      apply Nat.mul_le_mul_right
      have := h.left
      omega
    congr 1
    omega

theorem rightsFrom_eq :
    rightsFrom layout k i p = p.right.drop (if a = p.left.length - 1 then b else 0) := by
  rw [h.index]
  exact h.rightsFrom_row h.right.le

theorem rightsFrom_succ :
    rightsFrom layout (k + 1) i p = p.right.drop (if a = p.left.length - 1 then b + 1 else 0) := by
  rw [h.index, Nat.add_assoc]
  exact h.rightsFrom_row h.right

theorem from_succ_of_ne {q : Partition D} (hj : layout[j]? = some q) (hne : j ≠ i) :
    leftsFrom layout (k + 1) j q = leftsFrom layout k j q ∧
      rightsFrom layout (k + 1) j q = rightsFrom layout k j q := by
  have hsides : (sides layout)[j]? = some (q.left, q.right) := by
    rw [getElem?_sides, hj]
    rfl
  obtain ⟨hbefore, hbehind⟩ := start_of_position h.sides_eq hsides h.left h.right
  rw [← h.index] at hbefore hbehind
  have hpos : 0 < q.right.length := length_pos_iff.2 q.right_ne_nil
  have hlpos : 0 < q.left.length := length_pos_iff.2 q.left_ne_nil
  rcases Nat.lt_or_gt_of_ne hne with hlt | hlt
  · -- the partition is used up
    have hle := hbefore hlt
    have hused : ∀ k', start (sides layout) j + q.left.length * q.right.length ≤ k' →
        leftsFrom layout k' j q = [] ∧ rightsFrom layout k' j q = [] := by
      intro k' hk'
      constructor
      · apply drop_eq_nil_of_le
        apply (Nat.le_div_iff_mul_le hpos).2
        omega
      · apply drop_eq_nil_of_le
        have hlast : q.left.length * q.right.length =
            (q.left.length - 1) * q.right.length + q.right.length := by
          rw [← Nat.succ_mul, Nat.succ_eq_add_one, Nat.sub_add_cancel hlpos]
        omega
    rw [(hused k hle).1, (hused k hle).2]
    exact hused (k + 1) (by omega)
  · -- the partition is untouched
    have hlt := hbehind hlt
    have hnow : k - start (sides layout) j = 0 := by omega
    have hnext : k + 1 - start (sides layout) j = 0 := by omega
    rw [leftsFrom, leftsFrom, rightsFrom, rightsFrom, hnow, hnext]
    exact ⟨rfl, rfl⟩

end

end Position

end

/-! ## One call -/

section

variable {layout : List (Partition D)} {k i a b : Nat} {p : Partition D} {s : State D}

def Partition.slots (x : Partition D × Nat) : List LeftSlot × List RightSlot :=
  (x.1.left.zipIdx.map fun (l, counter) => ⟨x.2, counter, l.id⟩,
    x.1.right.zipIdx.map fun (r, counter) => ⟨counter, r.id⟩)

theorem slots_eq (layout : List (Partition D)) :
    slots (layout.map fun p => p.left.map Batch.id) (layout.map fun p => p.right.map Batch.id) =
      layout.zipIdx.map Partition.slots := by
  rw [slots, zip_map', zipIdx_map, map_map]
  apply map_congr_left
  intro x _
  simp only [Function.comp_apply, Prod.map, zipIdx_map, map_map]
  rfl

theorem map_zipIdx {E : Type} (f : Partition D → E) (layout : List (Partition D)) :
    (layout.zipIdx.map fun x => f x.1) = layout.map f := by
  conv_rhs => rw [← zipIdx_map_fst 0 layout]
  rw [map_map]
  rfl

theorem start_congr {A A' B B' : Type} {parts : List (List A × List B)}
    {parts' : List (List A' × List B')}
    (h : (parts.map fun x => x.1.length * x.2.length) = parts'.map fun x => x.1.length * x.2.length)
    (i : Nat) : start parts i = start parts' i := by
  rw [start, start, numPairs, numPairs, map_take, map_take, h]

theorem Position.walkPartitions_eq (h : Position layout k i p a b) {l r : Batch D}
    (hl : p.left[a]? = some l) (hr : p.right[b]? = some r) :
    walkPartitions k 0
      (slots (layout.map fun p => p.left.map Batch.id) (layout.map fun p => p.right.map Batch.id)) =
      .inr (⟨i, a, l.id⟩, ⟨b, r.id⟩) := by
  rw [Join.walkPartitions_eq, locate_of_le (Nat.zero_le _), Nat.sub_zero, slots_eq]
  have hpart : (layout.zipIdx.map Partition.slots)[i]? = some (Partition.slots (p, i)) := by
    simp [h.partition]
  have hleft : (Partition.slots (p, i)).1[a]? = some ⟨i, a, l.id⟩ := by
    simp [Partition.slots, hl]
  have hright : (Partition.slots (p, i)).2[b]? = some ⟨b, r.id⟩ := by
    simp [Partition.slots, hr]
  have hgrid : (grid (layout.zipIdx.map Partition.slots))[start (layout.zipIdx.map Partition.slots) i +
      a * (Partition.slots (p, i)).2.length + b]? = some (⟨i, a, l.id⟩, ⟨b, r.id⟩) :=
    getElem?_grid hpart hleft hright
  have hlengths : ((layout.zipIdx.map Partition.slots).map fun x => x.1.length * x.2.length) =
      (sides layout).map fun x => x.1.length * x.2.length := by
    rw [map_map, sides, map_map, ← map_zipIdx]
    simp [Partition.slots, Function.comp_def]
  have hstart := start_congr hlengths i
  have hlength : (Partition.slots (p, i)).2.length = p.right.length := by
    simp [Partition.slots]
  rw [hstart, hlength, ← h.index] at hgrid
  rw [hgrid]

variable {batches : List (Batch D)} {batch : Batch D} {c : Nat}

theorem find?_id (hdistinct : (batches.map Batch.id).Nodup) (hmem : batch ∈ batches) :
    (batches.find? fun x => x.id = batch.id) = some batch := by
  induction batches with
  | nil => cases hmem
  | cons x batches ih =>
    rw [map_cons, nodup_cons] at hdistinct
    rcases mem_cons.1 hmem with rfl | hmem
    · simp
    · have hne : x.id ≠ batch.id := by
        intro heq
        exact hdistinct.1 (heq ▸ mem_map_of_mem hmem)
      rw [find?_cons_of_neg (by simpa using hne)]
      exact ih hdistinct.2 hmem

theorem eraseP_drop (hc : batches[c]? = some batch) :
    ((batches.drop c).eraseP fun x => x.id = batch.id) = batches.drop (c + 1) := by
  obtain ⟨hlt, rfl⟩ := List.getElem?_eq_some_iff.1 hc
  rw [List.drop_eq_getElem_cons hlt, List.eraseP_cons_of_pos (by simp)]

/-- What `fetch` returns and leaves, when it removes at most the first batch of the partition. -/
theorem fetch_spec (repo : Repository D) {content : Nat → Option (List (Batch D))}
    (hrepo : ∀ j, repo.partitions[j]? = content j) (hi : content i = some (batches.drop c))
    {pop : Bool} (hmem : batch ∈ batches.drop c) (hpop : pop = true → batches[c]? = some batch) :
    (repo.fetch pop batch.id i).1 = some batch ∧
    ∀ j, (repo.fetch pop batch.id i).2.partitions[j]? =
      if j = i then some (batches.drop (if pop then c + 1 else c)) else content j := by
  have hpart : repo.partitions[i]? = some (batches.drop c) := (hrepo i).trans hi
  constructor
  · show ((repo.partitions[i]?.getD []).find? fun x => x.id = batch.id) = some batch
    rw [hpart]
    exact find?_id (repo.distinct _ (mem_of_getElem? hpart)) hmem
  · intro j
    cases pop with
    | false =>
      show repo.partitions[j]? = _
      split
      next hji =>
        rw [hji, hpart]
        rfl
      · exact hrepo j
    | true =>
      show (repo.partitions.modify i _)[j]? = _
      rw [getElem?_modify]
      split
      next hij =>
        rw [if_pos hij.symm, ← hij, hpart, Option.map_eq_map, map_some,
          eraseP_drop (hpop rfl)]
        rfl
      next hij =>
        rw [if_neg (Ne.symm hij)]
        simpa using hrepo j

/-- **A call hands out the pair at its index** and leaves what the later calls need. -/
theorem Ready.step (hready : Ready layout k s) (hpos : Position layout k i p a b) {l r : Batch D}
    (hl : p.left[a]? = some l) (hr : p.right[b]? = some r)
    (wrap : Nat → List (Option (Batch D)) → OperatorData D) :
    ∃ s', s.nextPair wrap = (s', some (wrap i [some l, some r])) ∧ Ready layout (k + 1) s' := by
  have hlefts : s.leftBatchIds[i]?.getD [] = p.left.map Batch.id := by
    simp [hready.leftIds, hpos.partition]
  have hrights : s.rightBatchIds[i]?.getD [] = p.right.map Batch.id := by
    simp [hready.rightIds, hpos.partition]
  -- the left batch is the first one left over
  have hleftmem : l ∈ p.left.drop a := by
    have h : (p.left.drop a)[0]? = some l := by rw [getElem?_drop, Nat.add_zero, hl]
    exact mem_of_getElem? h
  have hleftcontent : layout[i]?.map (leftsFrom layout k i) = some (p.left.drop a) := by
    rw [hpos.partition, map_some, hpos.leftsFrom_eq]
  obtain ⟨hleft, hdefault⟩ := fetch_spec s.default hready.default hleftcontent hleftmem
    fun _ : decide (b = p.right.length - 1) = true => hl
  -- the right batch is the first one in the last row only
  have hrightmem : r ∈ p.right.drop (if a = p.left.length - 1 then b else 0) := by
    have h : (p.right.drop (if a = p.left.length - 1 then b else 0))[
        if a = p.left.length - 1 then 0 else b]? = some r := by
      rw [getElem?_drop]
      split <;> simpa using hr
    exact mem_of_getElem? h
  have hrightcontent : layout[i]?.map (rightsFrom layout k i) =
      some (p.right.drop (if a = p.left.length - 1 then b else 0)) := by
    rw [hpos.partition, map_some, hpos.rightsFrom_eq]
  obtain ⟨hright, hbuild⟩ := fetch_spec s.build hready.build hrightcontent hrightmem
    (fun hlast : decide (a = p.left.length - 1) = true => by
      rw [if_pos (of_decide_eq_true hlast)]
      exact hr)
  refine ⟨(s.take ⟨i, a, l.id⟩ ⟨b, r.id⟩).1, ?_, ?_⟩
  · have hlt : ¬ s.numBatchesToProcess ≤ s.currentPartitionIndex := by
      rw [hready.count, hready.current]
      exact Nat.not_le_of_lt hpos.lt_numPairs
    have htake : (s.take ⟨i, a, l.id⟩ ⟨b, r.id⟩).2 = [some l, some r] := by
      simp only [State.take, hlefts, hrights, length_map, hleft, hright]
    rw [State.nextPair, if_neg hlt, hready.current, hready.leftIds, hready.rightIds,
      hpos.walkPartitions_eq hl hr]
    show ((s.take ⟨i, a, l.id⟩ ⟨b, r.id⟩).1,
      some (wrap i (s.take ⟨i, a, l.id⟩ ⟨b, r.id⟩).2)) = _
    rw [htake]
  · refine ⟨hready.leftIds, hready.rightIds, hready.count, ?_, ?_, ?_⟩
    · show s.currentPartitionIndex + 1 = k + 1
      rw [hready.current]
    · intro j
      simp only [State.take, hrights, length_map]
      rw [hdefault j]
      split
      next hji =>
        rw [hji, hpos.partition, map_some, hpos.leftsFrom_succ]
        simp only [decide_eq_true_eq]
      next hji =>
        cases hj : layout[j]? with
        | none => rfl
        | some q => rw [map_some, map_some, (hpos.from_succ_of_ne hj hji).1]
    · intro j
      simp only [State.take, hlefts, length_map]
      rw [hbuild j]
      split
      next hji =>
        rw [hji, hpos.partition, map_some, hpos.rightsFrom_succ]
        by_cases hlast : a = p.left.length - 1
        · simp [hlast]
        · simp [hlast]
      next hji =>
        cases hj : layout[j]? with
        | none => rfl
        | some q => rw [map_some, map_some, (hpos.from_succ_of_ne hj hji).2]

theorem Ready.done (hready : Ready layout (numPairs (sides layout)) s)
    (wrap : Nat → List (Option (Batch D)) → OperatorData D) : s.nextPair wrap = (s, none) := by
  rw [State.nextPair, hready.count, hready.current, if_pos (Nat.le_refl _)]

theorem map_range {E : Type} {h : Nat → E} {f : Partition D → E}
    (heq : ∀ i p, layout[i]? = some p → h i = f p) :
    (List.range layout.length).map h = layout.map f := by
  apply List.ext_getElem?
  intro i
  cases hi : layout[i]? with
  | none =>
    have hlen := List.getElem?_eq_none_iff.1 hi
    simp [Nat.not_lt.2 hlen]
  | some p =>
    obtain ⟨hlen, rfl⟩ := List.getElem?_eq_some_iff.1 hi
    simp [hlen, heq i _ hi]

theorem init_ready (layout : List (Partition D)) : Ready layout 0 (State.init layout).snapshot := by
  have hcontent : ∀ i, leftsFrom layout 0 i = Partition.left ∧
      rightsFrom layout 0 i = Partition.right := by
    intro i
    constructor
    · funext p
      simp [leftsFrom]
    · funext p
      simp [rightsFrom]
  have hnum : (State.init layout).default.numPartitions = layout.length := length_map ..
  have hleft : ∀ i p, layout[i]? = some p →
      (State.init layout).default.getBatchIds i = p.left.map Batch.id := by
    intro i p hi
    simp [State.init, Repository.getBatchIds, Repository.batches, hi]
  have hright : ∀ i p, layout[i]? = some p →
      (State.init layout).build.getBatchIds i = p.right.map Batch.id := by
    intro i p hi
    simp [State.init, Repository.getBatchIds, Repository.batches, hi]
  refine ⟨?_, ?_, ?_, rfl, ?_, ?_⟩
  · rw [State.snapshot, hnum]
    exact map_range hleft
  · rw [State.snapshot, hnum]
    exact map_range hright
  · rw [State.snapshot, hnum]
    show 0 + _ = _
    rw [Nat.zero_add, numPairs, sides, map_map]
    congr 1
    apply map_range
    intro i p hi
    rw [hleft i p hi, hright i p hi, length_map, length_map]
    rfl
  · intro i
    rw [(hcontent i).1]
    exact getElem?_map ..
  · intro i
    rw [(hcontent i).2]
    exact getElem?_map ..

end

/-! ## The pairs -/

section

variable {layout : List (Partition D)} {k n i a b : Nat} {p : Partition D} {l r : Batch D}

theorem mem_pairs : ((i, l), r) ∈ pairs layout ↔
    ∃ p, layout[i]? = some p ∧ l ∈ p.left ∧ r ∈ p.right := by
  rw [pairs, grid, flatMap_map, mem_flatMap]
  constructor
  · rintro ⟨x, hx, hmem⟩
    obtain ⟨_, hleft, hmem⟩ := mem_flatMap.1 hmem
    obtain ⟨l', hl, rfl⟩ := mem_map.1 hleft
    obtain ⟨r', hr, heq⟩ := mem_map.1 hmem
    cases heq
    exact ⟨x.1, mem_zipIdx_iff_getElem?.1 hx, hl, hr⟩
  · rintro ⟨p, hi, hl, hr⟩
    refine ⟨(p, i), mem_zipIdx_iff_getElem?.2 hi, mem_flatMap.2 ⟨(i, l), ?_, ?_⟩⟩
    · exact mem_map_of_mem hl
    · exact mem_map_of_mem hr

theorem nodup_pairs (layout : List (Partition D)) : (pairs layout).Nodup := by
  rw [pairs, grid, flatMap_map]
  apply nodup_flatMap.2
  constructor
  · rintro ⟨p, i⟩ -
    apply List.Nodup.product
    · exact (List.Nodup.of_map _ p.left_distinct).map fun x y h => (Prod.mk.inj h).2
    · exact List.Nodup.of_map _ p.right_distinct
  · -- the numbers of the partitions keep them apart
    have hnumbers : layout.zipIdx.Pairwise fun x y => x.2 ≠ y.2 := by
      apply pairwise_map.1
      rw [zipIdx_map_snd]
      exact nodup_range'
    apply hnumbers.imp
    rintro ⟨p, i⟩ ⟨q, j⟩ hne pair hp hq
    simp only [mem_flatMap, mem_map] at hp hq
    obtain ⟨_, ⟨l, -, rfl⟩, r, -, rfl⟩ := hp
    obtain ⟨_, ⟨l', -, rfl⟩, r', -, heq⟩ := hq
    exact hne (congrArg (fun pair => pair.1.1) heq).symm

theorem length_pairs (layout : List (Partition D)) :
    (pairs layout).length = numPairs (sides layout) := by
  rw [pairs, length_grid, numPairs, numPairs, map_map, sides, map_map, ← map_zipIdx]
  simp [Function.comp_def]

theorem Position.getElem?_pairs (h : Position layout k i p a b) (hl : p.left[a]? = some l)
    (hr : p.right[b]? = some r) : (pairs layout)[k]? = some ((i, l), r) := by
  have hpart : (layout.zipIdx.map fun (p, i) => (p.left.map (Prod.mk i), p.right))[i]? =
      some (p.left.map (Prod.mk i), p.right) := by
    simp [h.partition]
  have hleft : (p.left.map (Prod.mk i))[a]? = some (i, l) := by
    simp [hl]
  have hstart : start (layout.zipIdx.map fun (p, i) => (p.left.map (Prod.mk i), p.right)) i =
      start (sides layout) i := by
    apply start_congr
    rw [map_map, sides, map_map, ← map_zipIdx]
    simp [Function.comp_def]
  rw [h.index, ← hstart]
  exact getElem?_grid hpart hleft hr

theorem mem_drop_pairs : ((i, l), r) ∈ (pairs layout).drop n ↔
    ∃ p a b, Position layout (start (sides layout) i + a * p.right.length + b) i p a b ∧
      p.left[a]? = some l ∧ p.right[b]? = some r ∧
      n ≤ start (sides layout) i + a * p.right.length + b := by
  constructor
  · intro hmem
    obtain ⟨j, hj⟩ := mem_iff_getElem?.1 hmem
    rw [getElem?_drop] at hj
    have hlt := (List.getElem?_eq_some_iff.1 hj).1
    rw [length_pairs] at hlt
    obtain ⟨i', p, a, b, hpos⟩ := exists_position_of_lt hlt
    have hl := getElem?_eq_getElem hpos.left
    have hr := getElem?_eq_getElem hpos.right
    rw [hpos.getElem?_pairs hl hr] at hj
    cases hj
    refine ⟨p, a, b, ?_, hl, hr, ?_⟩
    · rw [← hpos.index]
      exact hpos
    · rw [← hpos.index]
      exact Nat.le_add_right ..
  · intro ⟨p, a, b, hpos, hl, hr, hle⟩
    obtain ⟨j, hj⟩ := Nat.exists_eq_add_of_le hle
    have hat := hpos.getElem?_pairs hl hr
    rw [hj, ← getElem?_drop] at hat
    exact mem_of_getElem? hat

theorem mem_leftsFrom (hi : layout[i]? = some p) :
    l ∈ leftsFrom layout n i p ↔ ∃ r, ((i, l), r) ∈ (pairs layout).drop n := by
  have hpos : 0 < p.right.length := length_pos_iff.2 p.right_ne_nil
  simp only [mem_drop_pairs]
  constructor
  · intro hmem
    obtain ⟨j, hj⟩ := mem_iff_getElem?.1 hmem
    rw [leftsFrom, getElem?_drop] at hj
    -- the last pair of the batch
    have hb : p.right.length - 1 < p.right.length := by omega
    refine ⟨p.right[p.right.length - 1], p, _, _,
      ⟨hi, (List.getElem?_eq_some_iff.1 hj).1, hb, rfl⟩, hj, List.getElem?_eq_getElem hb, ?_⟩
    have hrow := Nat.lt_succ_of_le (Nat.le_add_right ((n - start (sides layout) i) / p.right.length) j)
    rw [Nat.div_lt_iff_lt_mul hpos, Nat.succ_mul] at hrow
    omega
  · intro ⟨r, q, a, b, hposition, hl, _, hle⟩
    have hq : q = p := Option.some.inj (hposition.partition.symm.trans hi)
    subst hq
    have hrow : (n - start (sides layout) i) / q.right.length ≤ a := by
      apply Nat.le_of_lt_succ
      rw [Nat.div_lt_iff_lt_mul hpos, Nat.succ_mul]
      have := hposition.right
      omega
    obtain ⟨j, rfl⟩ := Nat.exists_eq_add_of_le hrow
    rw [← getElem?_drop] at hl
    exact mem_of_getElem? hl

theorem mem_rightsFrom (hi : layout[i]? = some p) :
    r ∈ rightsFrom layout n i p ↔ ∃ l, ((i, l), r) ∈ (pairs layout).drop n := by
  have hpos : 0 < p.left.length := length_pos_iff.2 p.left_ne_nil
  simp only [mem_drop_pairs]
  constructor
  · intro hmem
    obtain ⟨j, hj⟩ := mem_iff_getElem?.1 hmem
    rw [rightsFrom, getElem?_drop] at hj
    -- the pair with the last left batch
    have ha : p.left.length - 1 < p.left.length := by omega
    refine ⟨p.left[p.left.length - 1], p, _, _,
      ⟨hi, ha, (List.getElem?_eq_some_iff.1 hj).1, rfl⟩, List.getElem?_eq_getElem ha, hj, ?_⟩
    omega
  · intro ⟨l, q, a, b, hposition, _, hr, hle⟩
    have hq : q = p := Option.some.inj (hposition.partition.symm.trans hi)
    subst hq
    have hrow : a * q.right.length ≤ (q.left.length - 1) * q.right.length := by
      apply Nat.mul_le_mul_right
      have := hposition.left
      omega
    have hlast : n - start (sides layout) i - (q.left.length - 1) * q.right.length ≤ b := by omega
    obtain ⟨j, rfl⟩ := Nat.exists_eq_add_of_le hlast
    rw [← getElem?_drop] at hr
    exact mem_of_getElem? hr

end

/-! ## All calls -/

section

variable {layout : List (Partition D)} (mismatch : String)
  (wrap : Nat → List (Option (Batch D)) → OperatorData D) {s : State D}

theorem nextTaskInputData_init (layout : List (Partition D)) :
    nextTaskInputData mismatch wrap (State.init layout) =
      .ok ((State.init layout).snapshot.nextPair wrap) := by
  have hnum : (State.init layout).default.numPartitions = (State.init layout).build.numPartitions := by
    simp [State.init, Repository.numPartitions]
  rw [nextTaskInputData, if_pos ⟨rfl, rfl⟩, if_neg (not_not.2 hnum)]

theorem Ready.nextTaskInputData_eq {k : Nat} (hready : Ready layout k s) :
    nextTaskInputData mismatch wrap s = .ok (s.nextPair wrap) := by
  rw [nextTaskInputData]
  split
  next hempty =>
    -- only without partitions is nothing noted
    have hnil : layout = [] := by
      have h := hempty.1
      rw [hready.leftIds] at h
      exact map_eq_nil_iff.1 h
    subst hnil
    have hdefault : s.default.partitions = [] := ext_getElem? hready.default
    have hbuild : s.build.partitions = [] := ext_getElem? hready.build
    have hsame : s.snapshot = s := by
      have hcount := hready.count
      cases s
      simp_all [State.snapshot, Repository.numPartitions]
    rw [if_neg (by simp [Repository.numPartitions, hdefault, hbuild]), hsame]
  · rfl

/-- The state before the call with index `n`: behind the initialization that this call may still make,
the state is ready. -/
def Before (layout : List (Partition D)) (n : Nat) (s : State D) : Prop :=
  ∃ ready, Ready layout (min n (pairs layout).length) ready ∧
    ready.default = s.default ∧ ready.build = s.build ∧
    ∀ mismatch wrap, nextTaskInputData mismatch wrap s = .ok (ready.nextPair wrap)

theorem before_init (layout : List (Partition D)) : Before layout 0 (State.init layout) := by
  refine ⟨(State.init layout).snapshot, ?_, rfl, rfl, fun mismatch wrap => ?_⟩
  · rw [Nat.zero_min]
    exact init_ready layout
  · exact nextTaskInputData_init mismatch wrap layout

theorem Ready.before {n : Nat} (h : Ready layout (min n (pairs layout).length) s) :
    Before layout n s :=
  ⟨s, h, rfl, rfl, fun mismatch wrap => h.nextTaskInputData_eq mismatch wrap⟩

/-- The call with index `n` returns the pair of that index, if there is one, and else null. -/
theorem Before.step {n : Nat} (h : Before layout n s) :
    ∃ s', nextTaskInputData mismatch wrap s = .ok (s', (pairs layout)[n]?.map fun pair =>
        wrap pair.1.1 [some pair.1.2, some pair.2]) ∧ Before layout (n + 1) s' := by
  obtain ⟨ready, hready, -, -, hnext⟩ := h
  rw [hnext]
  by_cases hn : n < (pairs layout).length
  · rw [Nat.min_eq_left hn.le] at hready
    obtain ⟨i, p, a, b, hpos⟩ := exists_position_of_lt (length_pairs layout ▸ hn)
    have hl := getElem?_eq_getElem hpos.left
    have hr := getElem?_eq_getElem hpos.right
    obtain ⟨s', hs', hready'⟩ := hready.step hpos hl hr wrap
    refine ⟨s', ?_, Ready.before ?_⟩
    · rw [hs', hpos.getElem?_pairs hl hr]
      rfl
    · rw [Nat.min_eq_left hn]
      exact hready'
  · rw [Nat.min_eq_right (by omega)] at hready
    refine ⟨ready, ?_, Ready.before ?_⟩
    · rw [getElem?_eq_none (by omega), Ready.done (length_pairs layout ▸ hready)]
      rfl
    · rw [Nat.min_eq_right (by omega)]
      exact hready

theorem Before.runCalls (layout : List (Partition D)) (n : Nat) :
    ∃ s, runCalls (nextTaskInputData mismatch wrap) (State.init layout) n =
      .ok (s, (range n).map fun k => (pairs layout)[k]?.map fun pair =>
        wrap pair.1.1 [some pair.1.2, some pair.2]) ∧ Before layout n s := by
  induction n with
  | zero => exact ⟨_, rfl, before_init layout⟩
  | succ n ih =>
    obtain ⟨s, hs, hbefore⟩ := ih
    obtain ⟨s', hs', hbefore'⟩ := hbefore.step mismatch wrap
    refine ⟨s', ?_, hbefore'⟩
    rw [PairJoin.runCalls, hs]
    show (nextTaskInputData mismatch wrap s >>= _) = _
    rw [hs', range_succ, map_append]
    rfl

/-- What successive calls return, and what the repositories hold before each of them: exactly the
batches of the pairs to come. -/
def Enumerates (next : State D → Except String (State D × Option (OperatorData D)))
    (wrap : Nat → List (Option (Batch D)) → OperatorData D) (layout : List (Partition D)) : Prop :=
  ∀ n, ∃ s, runCalls next (State.init layout) n =
      .ok (s, (List.range n).map fun k => (pairs layout)[k]?.map fun pair =>
        wrap pair.1.1 [some pair.1.2, some pair.2]) ∧
    (∀ i p, layout[i]? = some p → ∃ lefts rights,
      s.default.partitions[i]? = some lefts ∧ s.build.partitions[i]? = some rights ∧
      (∀ l, l ∈ lefts ↔ ∃ r, ((i, l), r) ∈ (pairs layout).drop n) ∧
      ∀ r, r ∈ rights ↔ ∃ l, ((i, l), r) ∈ (pairs layout).drop n) ∧
    ((pairs layout).length ≤ n →
      ∀ batches ∈ s.default.partitions ++ s.build.partitions, batches = [])

theorem enumerates (layout : List (Partition D)) :
    Enumerates (nextTaskInputData mismatch wrap) wrap layout := by
  intro n
  obtain ⟨s, hs, ready, hready, hdefault, hbuild, -⟩ := Before.runCalls mismatch wrap layout n
  have hdrop : (pairs layout).drop (min n (pairs layout).length) = (pairs layout).drop n := by
    rcases Nat.le_total n (pairs layout).length with hle | hle
    · rw [Nat.min_eq_left hle]
    · rw [Nat.min_eq_right hle, drop_length, drop_eq_nil_of_le hle]
  refine ⟨s, hs, (and_iff_left_of_imp fun hcontents hlast batches hmem => ?_).2 ?_⟩
  · have hpartition : ∃ i : Nat, s.default.partitions[i]? = some batches ∨
        s.build.partitions[i]? = some batches := by
      rcases mem_append.1 hmem with hmem | hmem
      · obtain ⟨i, hi⟩ := mem_iff_getElem?.1 hmem
        exact ⟨i, .inl hi⟩
      · obtain ⟨i, hi⟩ := mem_iff_getElem?.1 hmem
        exact ⟨i, .inr hi⟩
    obtain ⟨i, hi⟩ := hpartition
    cases hp : layout[i]? with
    | none =>
      rw [← hdefault, ← hbuild, hready.default, hready.build, hp] at hi
      simp at hi
    | some p =>
      -- no pair is to come, so that no batch is left
      obtain ⟨lefts, rights, hlefts, hrights, hleft, hright⟩ := hcontents i p hp
      rw [drop_eq_nil_of_le hlast] at hleft hright
      rw [hlefts, hrights, Option.some.injEq, Option.some.injEq] at hi
      rcases hi with rfl | rfl
      · exact eq_nil_iff_forall_not_mem.2 fun l hl => by simpa using (hleft l).1 hl
      · exact eq_nil_iff_forall_not_mem.2 fun r hr => by simpa using (hright r).1 hr
  · intro i p hi
    refine ⟨leftsFrom layout (min n (pairs layout).length) i p,
      rightsFrom layout (min n (pairs layout).length) i p, ?_, ?_, ?_, ?_⟩
    · rw [← hdefault, hready.default, hi]
      rfl
    · rw [← hbuild, hready.build, hi]
      rfl
    · intro l
      rw [← hdrop]
      exact mem_leftsFrom hi
    · intro r
      rw [← hdrop]
      exact mem_rightsFrom hi

/-- **Every pair of batches of a partition is handed out once**, by both joins, and each batch leaves
its repository with the last of its pairs. -/
theorem joins_enumerate_pairs (layout : List (Partition D)) (operatorId : Nat) :
    (pairs layout).Nodup ∧
    (∀ i l r, ((i, l), r) ∈ pairs layout ↔
      ∃ p, layout[i]? = some p ∧ l ∈ p.left ∧ r ∈ p.right) ∧
    Enumerates (hashJoinNextTaskInputData operatorId) partitionedOperatorData layout ∧
    Enumerates nestedLoopJoinNextTaskInputData pipelineableOperatorData layout :=
  ⟨nodup_pairs layout, fun _ _ _ => mem_pairs, enumerates _ _ layout, enumerates _ _ layout⟩

end

end Sirius.PairJoin
