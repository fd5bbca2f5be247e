import Sirius.Expression.Comparison
import Sirius.Lib.Runs
import Sirius.Partition.HashPartition

/-!
# The two partition operators of a join

Both inputs of a join go through a `sirius_physical_partition`. The two operators take their keys from the
conditions of the join, each for its own side, and whichever is asked for input first decides the number
of partitions for both.

A row then goes to the partition that its keys hash to (`Join.execute_ok`), and rows that satisfy the
equality conditions have the same hash keys (`Join.keyCells_eq`). What can go wrong is a cast in a key:
cuDF cannot cast from or to `VARCHAR`, so that the operator throws as soon as there are two partitions
(`colocated_iff_castable`).
-/

namespace Sirius.Partition

open Lib List Function
open Sirius.Expression (ComparisonType)

variable {V : Type}

/-! ## Keys -/

inductive Side where
  | left
  | right
  deriving DecidableEq, Repr

/-- A side of a condition: a column, a cast of a column, or any other expression. -/
inductive KeyExpression (V : Type) where
  | boundRef (index : Nat)
  | boundCast (index : Nat) (returnType : CudfType)
  | other (returnType : CudfType) (eval : Row V → Option V)

namespace KeyExpression

def extractBoundRefIndex : KeyExpression V → Option Nat
  | boundRef index | boundCast index _ => some index
  | other .. => none

def castType : KeyExpression V → Option CudfType
  | boundCast _ returnType => some returnType
  | _ => none

def type (types : List CudfType) : KeyExpression V → Option CudfType
  | boundRef index => types[index]?
  | boundCast _ returnType | other returnType _ => some returnType

def eval (cudf : Cudf V) (types : List CudfType) (row : Row V) : KeyExpression V → Option V
  | boundRef index => row.getD index none
  | boundCast index returnType => (PartitionKey.cell cudf types ⟨index, some returnType⟩ row).2
  | other _ eval => eval row

end KeyExpression

structure Condition (V : Type) where
  comparison : ComparisonType
  left : KeyExpression V
  right : KeyExpression V

namespace Condition

def isEquality (c : Condition V) : Bool :=
  c.comparison == .equal || c.comparison == .notDistinctFrom

def expression (c : Condition V) : Side → KeyExpression V
  | .left => c.left
  | .right => c.right

/-- The key that a condition gives the operator of a side. It needs a column on both sides. -/
def partitionKey (side : Side) (c : Condition V) : Option PartitionKey :=
  if c.isEquality then
    match c.left.extractBoundRefIndex, c.right.extractBoundRefIndex with
    | some leftIndex, some rightIndex =>
      let index := match side with
        | .left => leftIndex
        | .right => rightIndex
      some ⟨index, (c.expression side).castType⟩
    | _, _ => none
  else none

end Condition

inductive ParentOp where
  | hashJoin
  | nestedLoopJoin
  deriving DecidableEq, Repr

/-- A join, with the types of the columns of its inputs and the settings of its partition operators. The
binder gives both sides of an equality the same type. -/
structure Join (V : Type) where
  parentOp : ParentOp
  conditions : List (Condition V)
  types : Side → List CudfType
  operatorId : Side → Nat
  partitionSize : Nat
  minNumPartitions : Int
  smallTableBytes : Nat
  partitionSize_pos : 0 < partitionSize
  index_lt : ∀ c ∈ conditions, ∀ side i, (c.expression side).extractBoundRefIndex = some i →
    i < (types side).length
  sameType : ∀ c ∈ conditions, c.isEquality = true →
    c.left.type (types .left) = c.right.type (types .right)

/-! ## The operators -/

inductive PartitionType where
  | hash
  | none
  deriving DecidableEq, Repr

def toInt (n : Nat) : Int := (BitVec.ofNat 32 n).toInt

namespace Join

variable (join : Join V)

/-- The keys that `get_partition_keys_and_type` finds -/
def partitionKeys (side : Side) : List PartitionKey :=
  match join.parentOp with
  | .hashJoin => join.conditions.filterMap (Condition.partitionKey side)
  | .nestedLoopJoin => []

def partitionType : PartitionType :=
  match join.parentOp with
  | .hashJoin => .hash
  | .nestedLoopJoin => .none

def initialNumPartitions : Option Int :=
  match join.parentOp with
  | .hashJoin => none
  | .nestedLoopJoin => some 1

def determineNumPartitions (totalBytes : Nat) : Int :=
  let numPartitions := toInt (max 1 (totalBytes / join.partitionSize))
  if 1 < join.minNumPartitions ∧ join.smallTableBytes ≤ totalBytes then
    max numPartitions join.minNumPartitions
  else numPartitions

def execute (cudf : Cudf V) (side : Side) (numPartitions : Option Int) (batch : List (Row V)) :
    Except PartitionError (List (List (Row V))) :=
  match numPartitions with
  | none => .error (.runtimeError ("Num partitions was not set in sirius_physical_partition operator " ++
      toString (join.operatorId side)))
  | some n =>
    if n < 2 ∨ join.partitionKeys side = [] then .ok [batch]
    else
      match join.partitionType with
      | .hash => hashPartition cudf (join.types side) batch (join.partitionKeys side) n
      | .none => .ok [batch]

end Join

structure Batch (V : Type) where
  rows : List (Row V)
  bytes : Nat

/-- What a task has computed: the batch, the number of partitions it found, and its result. -/
structure Output (V : Type) where
  side : Side
  batch : List (Row V)
  numPartitions : Option Int
  result : Except PartitionError (List (List (Row V)))

/-- What `sink` pushes into a partition: the batches are numbered as they come. -/
def Output.sink (o : Output V) (partition : Nat) : List (Row V) :=
  match o.result with
  | .ok batches => batches.getD partition []
  | .error _ => []

structure State (V : Type) where
  port : Side → List (Batch V)
  numPartitions : Side → Option Int
  tasks : List (Side × List (Row V))
  outputs : List (Output V)

inductive Label (V : Type) where
  /-- A batch arrives at an operator. -/
  | push (side : Side) (batch : Batch V)
  /-- `get_next_task_input_data`, for a new task. Both locks are held. -/
  | pull (side : Side)
  /-- A task is executed. -/
  | run (i : Nat)

section Step

variable (cudf : Cudf V) (join : Join V)

def start : State V where
  port _ := []
  numPartitions _ := join.initialNumPartitions
  tasks := []
  outputs := []

/-- The number of partitions of both operators after `get_next_task_input_data` of one of them. -/
def decideNumPartitions (s : State V) (side : Side) : Side → Option Int :=
  match s.numPartitions side with
  | none => fun _ => some (join.determineNumPartitions ((s.port side).map Batch.bytes).sum)
  | some _ => s.numPartitions

def step (s : State V) : Label V → Option (State V)
  | .push side batch =>
    if batch.rows.all fun row => row.length = (join.types side).length then
      some { s with port := Function.update s.port side (s.port side ++ [batch]) }
    else none
  | .pull side =>
    match s.port side with
    | [] => some { s with numPartitions := decideNumPartitions join s side }
    | batch :: rest => some { s with
        numPartitions := decideNumPartitions join s side
        port := Function.update s.port side rest
        tasks := s.tasks ++ [(side, batch.rows)] }
  | .run i =>
    match s.tasks[i]? with
    | none => none
    | some (side, batch) =>
      let n := s.numPartitions side
      some { s with
        tasks := s.tasks.eraseIdx i
        outputs := s.outputs ++ [⟨side, batch, n, join.execute cudf side n batch⟩] }

end Step

/-! ## Where a row goes -/

namespace Join

variable {cudf : Cudf V} {join : Join V} {side : Side}

def partitionOf (cudf : Cudf V) (join : Join V) (side : Side) (n : Int) (row : Row V) : Nat :=
  if n < 2 ∨ join.partitionKeys side = [] then 0
  else cudf.rowPartition n.toNat (keyCells cudf (join.types side) (join.partitionKeys side) row)

theorem index_lt_of_mem {key : PartitionKey} (h : key ∈ join.partitionKeys side) :
    key.index < (join.types side).length := by
  unfold partitionKeys at h
  split at h
  · obtain ⟨c, hc, hkey⟩ := mem_filterMap.1 h
    unfold Condition.partitionKey at hkey
    split at hkey
    · split at hkey
      next l r hl hr =>
        cases hkey
        cases side with
        | left => exact join.index_lt c hc .left l hl
        | right => exact join.index_lt c hc .right r hr
      · cases hkey
    · cases hkey
  · cases h

theorem partitionType_of_keys (h : join.partitionKeys side ≠ []) : join.partitionType = .hash := by
  unfold partitionKeys at h
  unfold partitionType
  cases hparent : join.parentOp with
  | hashJoin => rfl
  | nestedLoopJoin =>
    rw [hparent] at h
    exact absurd rfl h

variable {n : Int}

theorem execute_eq_hashPartition (hn : ¬ (n < 2 ∨ join.partitionKeys side = []))
    (batch : List (Row V)) :
    join.execute cudf side (some n) batch =
      hashPartition cudf (join.types side) batch (join.partitionKeys side) n := by
  rw [execute, if_neg hn]
  rw [partitionType_of_keys fun h => hn (.inr h)]

/-- **Placement.** Every row goes to one partition, the one that `partitionOf` gives. -/
theorem execute_ok (cudf : Cudf V) (n : Int) {batch : List (Row V)}
    (hcast : Castable (join.types side) (join.partitionKeys side))
    (hrows : ∀ row ∈ batch, row.length = (join.types side).length) :
    ∃ pieces, join.execute cudf side (some n) batch = .ok pieces ∧ pieces.flatten.Perm batch ∧
      ∀ (i : Nat) (piece : List (Row V)), pieces[i]? = some piece → ∀ row ∈ piece,
        join.partitionOf cudf side n row = i := by
  by_cases hn : n < 2 ∨ join.partitionKeys side = []
  · refine ⟨[batch], by rw [execute, if_pos hn], by simp, ?_⟩
    intro i piece hpiece row _
    rw [partitionOf, if_pos hn]
    have := (List.getElem?_eq_some_iff.1 hpiece).1
    simp only [List.length_singleton] at this
    omega
  · rw [execute_eq_hashPartition hn]
    have htwo : 2 ≤ n := by omega
    obtain ⟨pieces, heq, hlength, hpieces⟩ :=
      hashPartition_ok cudf htwo hcast (fun key => index_lt_of_mem) hrows
    refine ⟨pieces, heq, flatten_groupOf_perm ?_ hpieces, ?_⟩
    · intro row _
      rw [hlength]
      exact cudf.rowPartition_lt (by omega) _
    · intro i piece hpiece row hrow
      rw [partitionOf, if_neg hn]
      have := (hpieces i piece hpiece).mem_iff.1 hrow
      exact of_decide_eq_true (List.mem_filter.1 this).2

end Join

/-! ## Matching rows -/

section Matching

variable [LinearOrder V] {cudf : Cudf V} {join : Join V} {l r : Row V} {i : Nat}

def Condition.Holds (cudf : Cudf V) (join : Join V) (l r : Row V) (c : Condition V) : Prop :=
  c.comparison.sql (c.left.eval cudf (join.types .left) l) (c.right.eval cudf (join.types .right) r) =
    some true

def Join.Matches (cudf : Cudf V) (join : Join V) (l r : Row V) : Prop :=
  ∀ c ∈ join.conditions, c.isEquality = true → c.Holds cudf join l r

theorem Condition.Holds.eval_eq {c : Condition V} (h : c.Holds cudf join l r)
    (heq : c.isEquality = true) :
    c.left.eval cudf (join.types .left) l = c.right.eval cudf (join.types .right) r := by
  rw [Condition.isEquality, Bool.or_eq_true, beq_iff_eq, beq_iff_eq] at heq
  unfold Condition.Holds at h
  rcases heq with heq | heq
  · rw [heq] at h
    obtain ⟨x, y, hx, hy, hxy⟩ := Option.map₂_eq_some_iff.1 h
    rw [hx, hy, of_decide_eq_true hxy]
  · rw [heq] at h
    exact of_decide_eq_true (Option.some.inj h)

omit [LinearOrder V] in
theorem KeyExpression.cell_eq (cudf : Cudf V) {e : KeyExpression V}
    (h : e.extractBoundRefIndex = some i) (types : List CudfType) (row : Row V) :
    PartitionKey.cell cudf types ⟨i, e.castType⟩ row = (e.type types, e.eval cudf types row) := by
  cases e with
  | boundRef index | boundCast index returnType =>
    cases h
    rfl
  | other returnType eval => cases h

theorem Condition.cell_eq {c : Condition V} (hc : c ∈ join.conditions)
    (h : c.isEquality = true → c.Holds cudf join l r) :
    (c.partitionKey .left).map (fun key => key.cell cudf (join.types .left) l) =
      (c.partitionKey .right).map fun key => key.cell cudf (join.types .right) r := by
  unfold Condition.partitionKey
  split
  next heq =>
    split
    next i j hi hj =>
      have hl := KeyExpression.cell_eq cudf hi (join.types .left) l
      have hr := KeyExpression.cell_eq cudf hj (join.types .right) r
      rw [join.sameType c hc heq, (h heq).eval_eq heq, ← hr] at hl
      exact congrArg some hl
    · rfl
  · rfl

theorem Join.keyCells_eq (h : join.Matches cudf l r) :
    keyCells cudf (join.types .left) (join.partitionKeys .left) l =
      keyCells cudf (join.types .right) (join.partitionKeys .right) r := by
  unfold keyCells Join.partitionKeys
  cases join.parentOp with
  | hashJoin =>
    show (join.conditions.filterMap _).map _ = (join.conditions.filterMap _).map _
    rw [map_filterMap, map_filterMap]
    apply filterMap_congr
    intro c hc
    exact Condition.cell_eq hc (h c hc)
  | nestedLoopJoin => rfl

/-- **Co-location.** Rows that match belong to the same partition. -/
theorem Join.partitionOf_eq (h : join.Matches cudf l r) (n : Int) :
    join.partitionOf cudf .left n l = join.partitionOf cudf .right n r := by
  have hcells := Join.keyCells_eq h
  have hempty : join.partitionKeys .left = [] ↔ join.partitionKeys .right = [] := by
    have hlength := congrArg length hcells
    rw [keyCells, keyCells, length_map, length_map] at hlength
    rw [← length_eq_zero_iff, ← length_eq_zero_iff, hlength]
  unfold Join.partitionOf
  rw [hcells]
  simp only [hempty]

end Matching

/-! ## Runs -/

/-- In a state, both operators use one number of partitions, every row of a batch has gone to one
partition, and matching rows have gone to the same one. -/
structure Colocated [LinearOrder V] (cudf : Cudf V) (join : Join V) (s : State V) : Prop where
  sameNumber : s.numPartitions .left = s.numPartitions .right
  usesNumber : ∀ o ∈ s.outputs, ∃ n, o.numPartitions = some n ∧ ∀ side, s.numPartitions side = some n
  placed : ∀ o ∈ s.outputs, ∃ pieces, o.result = .ok pieces ∧ pieces.flatten.Perm o.batch
  meet : ∀ o ∈ s.outputs, ∀ o' ∈ s.outputs, o.side = .left → o'.side = .right →
    ∀ i j, ∀ l ∈ o.sink i, ∀ r ∈ o'.sink j, join.Matches cudf l r → i = j

/-- What every run keeps: the operators agree, a task is created after the decision, and its output is
that of `execute` with the number that was decided. -/
structure Inv (cudf : Cudf V) (join : Join V) (s : State V) : Prop where
  sameNumber : ∀ side side', s.numPartitions side = s.numPartitions side'
  port : ∀ side, ∀ batch ∈ s.port side, ∀ row ∈ batch.rows, row.length = (join.types side).length
  tasks : ∀ side batch, (side, batch) ∈ s.tasks → (∃ n, s.numPartitions side = some n) ∧
    ∀ row ∈ batch, row.length = (join.types side).length
  outputs : ∀ o ∈ s.outputs, ∃ n, s.numPartitions o.side = some n ∧ o.numPartitions = some n ∧
    o.result = join.execute cudf o.side (some n) o.batch ∧
    ∀ row ∈ o.batch, row.length = (join.types o.side).length

section Runs

variable {cudf : Cudf V} {join : Join V} {s s' : State V}

theorem inv_start : Inv cudf join (start join) where
  sameNumber _ _ := rfl
  port side batch h := by cases h
  tasks side batch h := by cases h
  outputs o h := by cases h

theorem decideNumPartitions_same (h : ∀ side side', s.numPartitions side = s.numPartitions side')
    (d side side' : Side) : decideNumPartitions join s d side = decideNumPartitions join s d side' := by
  unfold decideNumPartitions
  cases s.numPartitions d with
  | none => rfl
  | some _ => exact h side side'

variable {side : Side} {n : Int}

theorem decideNumPartitions_of_some (h : ∀ side side', s.numPartitions side = s.numPartitions side')
    (hn : s.numPartitions side = some n) (d : Side) :
    decideNumPartitions join s d side = some n := by
  have hd : s.numPartitions d = some n := (h d side).trans hn
  rw [decideNumPartitions, hd]
  exact hn

theorem exists_decideNumPartitions (join : Join V) (s : State V) (side : Side) :
    ∃ n, decideNumPartitions join s side side = some n := by
  unfold decideNumPartitions
  cases hn : s.numPartitions side with
  | none => exact ⟨_, rfl⟩
  | some n => exact ⟨n, hn⟩

section

variable (h : Inv cudf join s) {i : Nat}

include h

/-- A later decision keeps the number that the tasks and outputs have seen. -/
theorem Inv.decide (d : Side) :
    Inv cudf join { s with numPartitions := decideNumPartitions join s d } where
  sameNumber := decideNumPartitions_same h.sameNumber d
  port := h.port
  tasks side batch hmem := by
    obtain ⟨⟨n, hn⟩, hrows⟩ := h.tasks side batch hmem
    exact ⟨⟨n, decideNumPartitions_of_some h.sameNumber hn d⟩, hrows⟩
  outputs o ho := by
    obtain ⟨n, hn, hrest⟩ := h.outputs o ho
    exact ⟨n, decideNumPartitions_of_some h.sameNumber hn d, hrest⟩

theorem inv_push {batch : Batch V}
    (hrows : ∀ row ∈ batch.rows, row.length = (join.types side).length) :
    Inv cudf join { s with port := update s.port side (s.port side ++ [batch]) } where
  sameNumber := h.sameNumber
  port side' b hb := by
    simp only [update_apply] at hb
    split at hb
    next heq =>
      subst heq
      rcases mem_append.1 hb with hb | hb
      · exact h.port _ b hb
      · rw [mem_singleton.1 hb]
        exact hrows
    · exact h.port side' b hb
  tasks := h.tasks
  outputs := h.outputs

theorem inv_take (hn : s.numPartitions side = some n) {batch : Batch V} {rest : List (Batch V)}
    (hport : s.port side = batch :: rest) :
    Inv cudf join { s with
      port := update s.port side rest
      tasks := s.tasks ++ [(side, batch.rows)] } where
  sameNumber := h.sameNumber
  port side' b hb := by
    simp only [update_apply] at hb
    split at hb
    next heq =>
      subst heq
      exact h.port _ b (hport ▸ .tail _ hb)
    · exact h.port side' b hb
  tasks side' rows hmem := by
    rcases mem_append.1 hmem with hmem | hmem
    · exact h.tasks side' rows hmem
    · cases mem_singleton.1 hmem
      exact ⟨⟨n, hn⟩, h.port side batch (hport ▸ .head _)⟩
  outputs := h.outputs

theorem inv_execute {batch : List (Row V)} (hi : s.tasks[i]? = some (side, batch)) :
    Inv cudf join { s with
      tasks := s.tasks.eraseIdx i
      outputs := s.outputs ++ [⟨side, batch, s.numPartitions side,
        join.execute cudf side (s.numPartitions side) batch⟩] } where
  sameNumber := h.sameNumber
  port := h.port
  tasks side' rows hmem := h.tasks side' rows (mem_of_mem_eraseIdx hmem)
  outputs o ho := by
    rcases mem_append.1 ho with ho | ho
    · exact h.outputs o ho
    · obtain ⟨⟨n, hn⟩, hrows⟩ := h.tasks side batch (mem_of_getElem? hi)
      cases mem_singleton.1 ho
      exact ⟨n, hn, hn, congrArg (join.execute cudf side · batch) hn, hrows⟩

theorem Inv.step {l : Label V} (hl : step cudf join s l = some s') : Inv cudf join s' := by
  cases l <;> simp only [Partition.step] at hl
  case push side batch =>
    split at hl
    next hrows =>
      cases hl
      apply inv_push h
      simpa using hrows
    · cases hl
  case pull side =>
    split at hl
    · cases hl
      exact h.decide side
    next batch rest hport =>
      cases hl
      obtain ⟨n, hn⟩ := exists_decideNumPartitions join s side
      exact inv_take (h.decide side) hn hport
  case run i =>
    split at hl
    · cases hl
    next side batch hi =>
      cases hl
      exact inv_execute h hi

end

theorem inv_of_run (h : Run (step cudf join) (fun _ _ => True) (start join) s) : Inv cudf join s :=
  h.invariant inv_start fun h _ hl => h.step hl

theorem Inv.sink (h : Inv cudf join s)
    (hcast : ∀ side, Castable (join.types side) (join.partitionKeys side)) {o : Output V}
    (ho : o ∈ s.outputs) {row : Row V} {i : Nat} (hrow : row ∈ o.sink i)
    (hn : s.numPartitions o.side = some n) : join.partitionOf cudf o.side n row = i := by
  obtain ⟨n', hn', -, hresult, hrows⟩ := h.outputs o ho
  obtain rfl := Option.mem_unique hn hn'
  obtain ⟨pieces, hpieces, -, hplace⟩ := Join.execute_ok cudf n (hcast o.side) hrows
  rw [Output.sink, hresult, hpieces] at hrow
  simp only [getD_eq_getElem?_getD] at hrow
  cases hi : pieces[i]? with
  | none =>
    rw [hi] at hrow
    cases hrow
  | some piece =>
    rw [hi] at hrow
    exact hplace i piece hi row hrow

theorem Inv.colocated [LinearOrder V] (h : Inv cudf join s)
    (hcast : ∀ side, Castable (join.types side) (join.partitionKeys side)) : Colocated cudf join s where
  sameNumber := h.sameNumber .left .right
  usesNumber o ho := by
    obtain ⟨n, hn, hnum, -⟩ := h.outputs o ho
    exact ⟨n, hnum, fun side => (h.sameNumber side o.side).trans hn⟩
  placed o ho := by
    obtain ⟨n, -, -, hresult, hrows⟩ := h.outputs o ho
    obtain ⟨pieces, hpieces, hperm, -⟩ := Join.execute_ok cudf n (hcast o.side) hrows
    exact ⟨pieces, hresult.trans hpieces, hperm⟩
  meet o ho o' ho' hleft hright i j l hl r hr hmatch := by
    obtain ⟨n, hn, -⟩ := h.outputs o ho
    have hn' : s.numPartitions o'.side = some n := (h.sameNumber _ _).trans hn
    have hi := h.sink hcast ho hl hn
    have hj := h.sink hcast ho' hr hn'
    rw [hleft] at hi
    rw [hright] at hj
    rw [← hi, ← hj]
    exact Join.partitionOf_eq hmatch n

/-! ## Casts that cannot be made -/

theorem two_le_determineNumPartitions (join : Join V) :
    2 ≤ join.determineNumPartitions (2 * join.partitionSize) := by
  have htwo : toInt (max 1 (2 * join.partitionSize / join.partitionSize)) = 2 := by
    rw [Nat.mul_div_cancel _ join.partitionSize_pos]
    rfl
  unfold Join.determineNumPartitions
  simp only [htwo]
  split
  · exact le_max_left ..
  · exact Int.le_refl 2

theorem parentOp_of_not_castable (h : ¬ Castable (join.types side) (join.partitionKeys side)) :
    join.parentOp = .hashJoin := by
  cases hparent : join.parentOp with
  | hashJoin => rfl
  | nestedLoopJoin =>
    apply absurd _ h
    intro key hkey
    rw [Join.partitionKeys, hparent] at hkey
    cases hkey

/-- A run that needs the cast: the build side holds enough data for two partitions, and then a row comes
in on the side of the cast. -/
theorem exists_run_castError (cudf : Cudf V)
    (h : ¬ Castable (join.types side) (join.partitionKeys side)) :
    ∃ s, Run (step cudf join) (fun _ _ => True) (start join) s ∧
      ∃ o ∈ s.outputs, o.batch ≠ [] ∧ o.result = .error .castError := by
  have hparent := parentOp_of_not_castable h
  let big : Batch V := ⟨[], 2 * join.partitionSize⟩
  let row : Row V := replicate (join.types side).length none
  let n := join.determineNumPartitions (2 * join.partitionSize)
  let s₁ : State V := { start join with port := update (start join).port .right [big] }
  have h₁ : step cudf join (start join) (.push .right big) = some s₁ := rfl
  let s₂ : State V := ⟨update s₁.port .right [], fun _ => some n, [(.right, [])], []⟩
  have h₂ : step cudf join s₁ (.pull .right) = some s₂ := by
    have hport : s₁.port .right = [big] := rfl
    have hnone : s₁.numPartitions .right = none := by
      show join.initialNumPartitions = none
      rw [Join.initialNumPartitions, hparent]
    simp only [step, hport, decideNumPartitions, hnone]
    rfl
  let s₃ : State V := { s₂ with port := update s₂.port side (s₂.port side ++ [⟨[row], 0⟩]) }
  have h₃ : step cudf join s₂ (.push side ⟨[row], 0⟩) = some s₃ := by
    have hall : [row].all (fun row => row.length = (join.types side).length) = true := by
      simp [row]
    exact if_pos hall
  have hempty : s₂.port side = [] := by
    cases side with
    | left => rfl
    | right => rfl
  let s₄ : State V := { s₃ with
    port := update s₃.port side []
    tasks := [(.right, []), (side, [row])] }
  have h₄ : step cudf join s₃ (.pull side) = some s₄ := by
    have hport : s₃.port side = [⟨[row], 0⟩] := by
      show update s₂.port side (s₂.port side ++ [⟨[row], 0⟩]) side = _
      rw [update_self, hempty]
      rfl
    simp only [step, hport, decideNumPartitions]
    rfl
  refine ⟨_, ((((Run.refl _).tail _ trivial h₁).tail _ trivial h₂).tail _ trivial h₃).tail _ trivial h₄
    |>.tail (.run 1) trivial rfl, _, mem_append_right _ (.head _), by simp, ?_⟩
  have hn : ¬ (n < 2 ∨ join.partitionKeys side = []) := by
    intro hn
    rcases hn with hn | hn
    · have := two_le_determineNumPartitions join
      omega
    · apply h
      rw [hn]
      intro key hkey
      cases hkey
  show join.execute cudf side (some n) [row] = .error .castError
  rw [Join.execute_eq_hashPartition hn]
  exact hashPartition_error (by omega) h fun key => Join.index_lt_of_mem

/-- **Partition co-location** holds in every run if and only if cuDF can make the casts of the keys:
none is from or to a type of variable width. -/
theorem colocated_iff_castable [LinearOrder V] (cudf : Cudf V) (join : Join V) :
    (∀ s, Run (step cudf join) (fun _ _ => True) (start join) s → Colocated cudf join s) ↔
      ∀ side, Castable (join.types side) (join.partitionKeys side) := by
  constructor
  · intro h side
    by_contra hcast
    obtain ⟨s, hrun, o, ho, -, herror⟩ := exists_run_castError cudf hcast
    obtain ⟨pieces, hok, -⟩ := (h s hrun).placed o ho
    cases herror.symm.trans hok
  · intro hcast s hrun
    exact (inv_of_run hrun).colocated hcast

end Runs

/-! A join of an `INTEGER` column with a `VARCHAR` column, `ON CAST(l.i AS VARCHAR) = r.s`. -/

def digits : Cudf Nat :=
  Cudf.ofHash (fun _ _ value => value) fun key => (key.map fun cell => cell.2.getD 0).sum

def varcharJoin : Join Nat where
  parentOp := .hashJoin
  conditions := [⟨.equal, .boundCast 0 .string, .boundRef 0⟩]
  types side := match side with
    | .left => [.int32]
    | .right => [.string]
  operatorId side := match side with
    | .left => 3
    | .right => 5
  partitionSize := 64
  minNumPartitions := 1
  smallTableBytes := 0
  partitionSize_pos := by decide
  index_lt := by
    intro c hc side i hi
    cases List.mem_singleton.1 hc
    cases side with
    | left | right =>
      cases hi
      decide
  sameType := by
    intro c hc _
    cases List.mem_singleton.1 hc
    rfl

/-- The row of the build side is placed. The row of the probe side that matches it is not. -/
theorem varchar_cast_throws :
    ∃ s, Run (step digits varcharJoin) (fun _ _ => True) (start varcharJoin) s ∧
      varcharJoin.Matches digits [some 7] [some 7] ∧
      s.outputs.map (fun o => (o.side, o.batch, o.numPartitions)) =
        [(.right, [[some 7]], some 2), (.left, [[some 7]], some 2)] ∧
      s.outputs.map (fun o => o.result) =
        [.ok [[], [[some 7]]], .error .castError] ∧
      ¬ Colocated digits varcharJoin s := by
  have hmatch : varcharJoin.Matches digits [some 7] [some 7] := by
    intro c hc _
    cases mem_singleton.1 hc
    rfl
  let labels : List (Label Nat) := [.push .right ⟨[[some 7]], 128⟩, .push .left ⟨[[some 7]], 4⟩,
    .pull .right, .run 0, .pull .left, .run 0]
  obtain ⟨s, hs, hbatches, hresults⟩ : ∃ s,
      runLabels (guarded (step digits varcharJoin) fun _ _ => true) (start varcharJoin) labels = some s ∧
      s.outputs.map (fun o => (o.side, o.batch, o.numPartitions)) =
        [(.right, [[some 7]], some 2), (.left, [[some 7]], some 2)] ∧
      s.outputs.map (fun o => o.result) = [.ok [[], [[some 7]]], .error .castError] :=
    ⟨_, rfl, rfl, rfl⟩
  refine ⟨s, (Run.of_runLabels hs).mono fun _ _ _ => trivial, hmatch, hbatches, hresults, ?_⟩
  intro h
  have hmem : Except.error .castError ∈ s.outputs.map (fun o => o.result) := by
    rw [hresults]
    exact .tail _ (.head _)
  obtain ⟨o, ho, herror⟩ := mem_map.1 hmem
  obtain ⟨pieces, hok, -⟩ := h.placed o ho
  cases herror.symm.trans hok

end Sirius.Partition
