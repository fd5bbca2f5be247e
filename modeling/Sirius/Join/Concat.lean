import Mathlib.Data.List.FinRange
import Sirius.Lib.Runs

/-!
# From batches to join inputs

A join reads each of its two sides through a partition operator and a concat operator. The
partition operator sends the rows of a batch to the partitions of the concat operator's repository
(`sirius_physical_partition::execute` and `sink`). The concat operator
(`sirius_physical_concat`) takes the batches of a partition in groups and makes one batch of each
group; how large the groups are depends on `concat_batch_bytes`, on the sizes of the batches and on
when they arrive. For the join types that need one side in one piece, `_concat_all` makes it wait
for the source pipeline and take all batches of a partition at once.
-/

namespace Sirius.Join

open Lib List Function

/-! ## Join types -/

inductive JoinType where
  | invalid
  | left
  | right
  | inner
  | outer
  | semi
  | anti
  | mark
  | single
  | rightSemi
  | rightAnti
  deriving DecidableEq, Repr

def JoinType.toString : JoinType → String
  | .invalid => "INVALID"
  | .left => "LEFT"
  | .right => "RIGHT"
  | .inner => "INNER"
  | .outer => "OUTER"
  | .semi => "SEMI"
  | .anti => "ANTI"
  | .mark => "MARK"
  | .single => "SINGLE"
  | .rightSemi => "RIGHT_SEMI"
  | .rightAnti => "RIGHT_ANTI"

inductive ParentOp where
  | hashJoin (joinType : JoinType)
  | nestedLoopJoin
  | other (name : String)

/-- `_concat_all`, as the constructor of the concat operator sets it. -/
def concatAll (isBuild : Bool) : ParentOp → Except String Bool
  | .hashJoin .left | .hashJoin .anti | .hashJoin .semi => .ok isBuild
  | .hashJoin .right | .hashJoin .rightAnti | .hashJoin .rightSemi => .ok !isBuild
  | .hashJoin .inner | .hashJoin .mark => .ok false
  | .hashJoin .outer => .ok true
  | .hashJoin joinType =>
    .error ("sirius_physical_concat: unsupported join type: " ++ joinType.toString)
  | .nestedLoopJoin => .ok false
  | .other name => .error ("sirius_physical_concat: parent_op is not a hash join: " ++ name)

/-! ## The partition operator -/

variable {R : Type} {m : Nat} (wholePartition : Bool) (concatBatchBytes : Nat)

/-- The partition of a row. With one partition or without partition keys (`passThrough`) every
row stays in partition 0. -/
def partOf (passThrough : Bool) (part : R → Fin (m + 1)) (row : R) : Fin (m + 1) :=
  if passThrough then 0 else part row

/-- The batches the partition operator pushes for one input batch, with their partitions: one for
each partition, also when it has no row, or the batch itself. -/
def partitionSink (passThrough : Bool) (part : R → Fin (m + 1)) (batch : List R) :
    List (Fin (m + 1) × List R) :=
  if passThrough then [(0, batch)]
  else (List.finRange (m + 1)).map fun i => (i, batch.filter fun row => part row = i)

/-! ## The concat operator -/

/-- A data batch: its rows and `get_size_in_bytes`. -/
structure Batch (R : Type) where
  rows : List R
  bytes : Nat
  deriving DecidableEq

/-- The inner loop of `get_next_task_input_data`: the batches taken from a partition, and those
that stay. -/
def pullGroup (total : Nat) (taken : List (Batch R)) :
    List (Batch R) → List (Batch R) × List (Batch R)
  | [] => (taken, [])
  | batch :: queue =>
    if !wholePartition && decide (concatBatchBytes < total + batch.bytes) then
      -- A batch that exceeds the threshold alone is taken alone.
      if taken.isEmpty then ([batch], queue) else (taken, batch :: queue)
    else pullGroup (total + batch.bytes) (taken ++ [batch]) queue

/-- The inner loop of `get_next_task_hint`: a group would be taken and a batch would be left. -/
def enoughData (numBatches total pulled : Nat) : List (Batch R) → Bool
  | [] => false
  | batch :: queue =>
    if decide (concatBatchBytes < total + batch.bytes) then
      decide (0 < pulled) || decide (1 < numBatches)
    else enoughData numBatches (total + batch.bytes) (pulled + 1) queue

/-- A concat operator at work. `arrived` records what the partition operator has pushed. -/
structure ConcatState (m : Nat) (R : Type) where
  queues : Fin (m + 1) → List (Batch R) := fun _ => []
  /-- The output batches, in the partitions of the join's port. -/
  groups : Fin (m + 1) → List (List R) := fun _ => []
  sourceFinished : Bool := false
  /-- A creation loop is running. -/
  creating : Bool := false
  arrived : List (Fin (m + 1) × List R) := []

def ConcatState.allPortsEmpty (st : ConcatState m R) : Bool :=
  (List.finRange (m + 1)).all fun i => (st.queues i).isEmpty

/-- `get_next_task_hint` answers `READY`. -/
def ConcatState.ready (st : ConcatState m R) : Bool :=
  if st.sourceFinished then !st.allPortsEmpty
  else !wholePartition && (List.finRange (m + 1)).any fun i =>
    enoughData concatBatchBytes (st.queues i).length 0 0 (st.queues i)

/-- `get_next_task_input_data`: the group of the first partition that gives one. -/
def ConcatState.nextGroup (st : ConcatState m R) :
    List (Fin (m + 1)) → Option (Fin (m + 1) × List (Batch R) × List (Batch R))
  | [] => none
  | i :: is =>
    match pullGroup wholePartition concatBatchBytes 0 [] (st.queues i) with
    | ([], _) => st.nextGroup is
    | (taken, queue) => some (i, taken, queue)

inductive ConcatLabel (m : Nat) (R : Type) where
  | arrive (i : Fin (m + 1)) (batch : Batch R)
  | sourceFinishes
  /-- A creation request finds the operator ready. -/
  | request
  /-- One round of the creation loop and the task it creates. -/
  | create

def concatStep (st : ConcatState m R) : ConcatLabel m R → Option (ConcatState m R)
  | .arrive i batch =>
    if st.sourceFinished then none
    else some { st with
      queues := Function.update st.queues i (st.queues i ++ [batch]),
      arrived := st.arrived ++ [(i, batch.rows)] }
  | .sourceFinishes => some { st with sourceFinished := true }
  | .request =>
    if st.ready wholePartition concatBatchBytes then some { st with creating := true } else none
  | .create =>
    if st.creating then
      match st.nextGroup wholePartition concatBatchBytes (List.finRange (m + 1)) with
      | none => some { st with creating := false }
      | some (i, taken, queue) =>
        some { st with
          queues := Function.update st.queues i queue,
          groups := Function.update st.groups i (st.groups i ++ [taken.flatMap Batch.rows]) }
    else none

/-! ## What the groups are -/

section Spec

variable {wholePartition : Bool} {concatBatchBytes : Nat} {st : ConcatState m R}

/-- A pull splits the queue, in order. -/
theorem pullGroup_append (wholePartition : Bool) (concatBatchBytes total : Nat)
    (taken queue : List (Batch R)) :
    (pullGroup wholePartition concatBatchBytes total taken queue).1 ++
      (pullGroup wholePartition concatBatchBytes total taken queue).2 = taken ++ queue := by
  induction queue generalizing total taken with
  | nil => rfl
  | cons batch queue ih =>
    rw [pullGroup]
    split
    · split
      next hempty =>
        rw [isEmpty_iff.mp hempty]
        rfl
      · rfl
    · rw [ih, append_assoc]
      rfl

theorem pullGroup_whole (total : Nat) (taken queue : List (Batch R)) :
    (pullGroup true concatBatchBytes total taken queue).2 = [] := by
  induction queue generalizing total taken with
  | nil => rfl
  | cons batch queue ih =>
    rw [pullGroup]
    exact ih _ _

theorem nextGroup_eq_some {is : List (Fin (m + 1))} {i : Fin (m + 1)} {taken queue : List (Batch R)}
    (h : st.nextGroup wholePartition concatBatchBytes is = some (i, taken, queue)) :
    pullGroup wholePartition concatBatchBytes 0 [] (st.queues i) = (taken, queue) ∧
      st.queues i ≠ [] := by
  induction is with
  | nil => cases h
  | cons j is ih =>
    rw [ConcatState.nextGroup] at h
    split at h
    · exact ih h
    next hne hpull =>
      cases h
      refine ⟨hpull, ?_⟩
      intro hnil
      rw [hnil, pullGroup] at hpull
      cases hpull
      exact hne rfl

def rowsAt (i : Fin (m + 1)) (arrivals : List (Fin (m + 1) × List R)) : List R :=
  (arrivals.filter fun x => x.1 = i).flatMap Prod.snd

theorem rowsAt_append (i : Fin (m + 1)) (xs ys : List (Fin (m + 1) × List R)) :
    rowsAt i (xs ++ ys) = rowsAt i xs ++ rowsAt i ys := by
  simp [rowsAt]

structure ConcatInv (wholePartition : Bool) (st : ConcatState m R) : Prop where
  /-- No row is lost, duplicated or moved. -/
  rows : ∀ i, (st.groups i).flatten ++ (st.queues i).flatMap Batch.rows = rowsAt i st.arrived
  /-- A partition has a batch exactly when one has arrived. -/
  arrivals : ∀ i, (st.groups i = [] ∧ st.queues i = []) ↔ ∀ x ∈ st.arrived, x.1 ≠ i
  creating : wholePartition = true → st.creating = true → st.sourceFinished = true
  whole : wholePartition = true → ∀ i, st.groups i ≠ [] →
    st.sourceFinished = true ∧ st.queues i = [] ∧ (st.groups i).length = 1

theorem ConcatInv.initial : ConcatInv wholePartition ({} : ConcatState m R) where
  rows i := rfl
  arrivals i := by simp
  creating _ h := by cases h
  whole _ i h := absurd rfl h

theorem ConcatInv.arrive (h : ConcatInv wholePartition st) (hopen : st.sourceFinished = false)
    (i : Fin (m + 1)) (batch : Batch R) :
    ConcatInv wholePartition { st with
      queues := update st.queues i (st.queues i ++ [batch]),
      arrived := st.arrived ++ [(i, batch.rows)] } where
  rows j := by
    rw [rowsAt_append, ← h.rows j]
    by_cases hj : j = i
    · subst hj
      simp [rowsAt]
    · simp [rowsAt, update_of_ne hj, Ne.symm hj]
  arrivals j := by
    by_cases hj : j = i
    · subst hj
      simp
    · have hold := h.arrivals j
      simp only [update_of_ne hj, hold, mem_append, mem_singleton]
      constructor
      · rintro hall x (hx | rfl)
        · exact hall x hx
        · exact Ne.symm hj
      · exact fun hall x hx => hall x (Or.inl hx)
  creating hw hc := h.creating hw hc
  whole hw j hj := by
    have hfin := (h.whole hw j hj).1
    rw [hopen] at hfin
    cases hfin

theorem ConcatInv.create (h : ConcatInv wholePartition st) (concatBatchBytes : Nat)
    (hcreating : st.creating = true) {i : Fin (m + 1)} (hi : st.queues i ≠ []) :
    ConcatInv wholePartition { st with
      queues := update st.queues i
        (pullGroup wholePartition concatBatchBytes 0 [] (st.queues i)).2,
      groups := update st.groups i (st.groups i ++
        [(pullGroup wholePartition concatBatchBytes 0 [] (st.queues i)).1.flatMap Batch.rows]) }
    where
  rows j := by
    rw [← h.rows j]
    by_cases hj : j = i
    · subst hj
      have hsplit := pullGroup_append wholePartition concatBatchBytes 0 [] (st.queues j)
      conv_rhs => rw [← nil_append (st.queues j), ← hsplit]
      simp
    · simp [update_of_ne hj]
  arrivals j := by
    by_cases hj : j = i
    · subst hj
      rw [← h.arrivals j]
      simp [hi]
    · simp only [update_of_ne hj]
      exact h.arrivals j
  creating hw hc := h.creating hw hc
  whole hw j hj := by
    by_cases hji : j = i
    · subst hji
      subst hw
      have hnone : st.groups j = [] := by
        by_contra hne
        exact hi (h.whole rfl j hne).2.1
      refine ⟨h.creating rfl hcreating, ?_, ?_⟩
      · simp [pullGroup_whole]
      · simp [hnone]
    · simp only [update_of_ne hji] at hj ⊢
      exact h.whole hw j hj

/-- **The concat operator loses nothing**, and one that takes whole partitions makes one group of
each. -/
theorem ConcatInv.step {st' : ConcatState m R} {l : ConcatLabel m R}
    (h : ConcatInv wholePartition st)
    (hstep : concatStep wholePartition concatBatchBytes st l = some st') :
    ConcatInv wholePartition st' := by
  cases l <;> simp only [concatStep] at hstep
  case arrive i batch =>
    split at hstep
    · cases hstep
    · cases hstep
      rename_i hopen
      exact h.arrive (by simpa using hopen) i batch
  case sourceFinishes =>
    cases hstep
    exact ⟨h.rows, h.arrivals, fun _ _ => rfl, fun hw i hi => ⟨rfl, (h.whole hw i hi).2⟩⟩
  case request =>
    split at hstep
    next hready =>
      cases hstep
      refine ⟨h.rows, h.arrivals, ?_, h.whole⟩
      rintro rfl _
      by_contra hrunning
      simp [ConcatState.ready, hrunning] at hready
    · cases hstep
  case create =>
    split at hstep
    next hcreating =>
      split at hstep
      · cases hstep
        exact ⟨h.rows, h.arrivals, fun _ => nofun, h.whole⟩
      next i taken queue hnext =>
        cases hstep
        obtain ⟨hpull, hi⟩ := nextGroup_eq_some hnext
        have hcreate := h.create concatBatchBytes hcreating hi
        rw [hpull] at hcreate
        exact hcreate
    · cases hstep

/-! ## From a table to the groups of a join's port -/

/-- The concat operator has formed `groups` from the batches `cut` of a table: some run in which
the partition operator pushed what it makes of `cut`, in some order and with some sizes, ended with
nothing left to do. The concat tasks may finish in any order. -/
def Formed (wholePartition : Bool) (concatBatchBytes : Nat) (passThrough : Bool)
    (part : R → Fin (m + 1)) (cut : List (List R)) (groups : Fin (m + 1) → List (List R)) : Prop :=
  ∃ st : ConcatState m R,
    Run (concatStep wholePartition concatBatchBytes) (fun _ _ => True) {} st ∧
      st.arrived.Perm (cut.flatMap (partitionSink passThrough part)) ∧
      (∀ i, st.queues i = []) ∧ ∀ i, (groups i).Perm (st.groups i)

theorem formed_of_labels [DecidableEq R] {wholePartition : Bool} {concatBatchBytes : Nat}
    {passThrough : Bool} {part : R → Fin (m + 1)} {cut : List (List R)}
    {groups : Fin (m + 1) → List (List R)} (labels : List (ConcatLabel m R))
    (h : (runLabels (guarded (concatStep wholePartition concatBatchBytes) fun _ _ => true) {}
      labels).any (fun st => decide (st.arrived.Perm (cut.flatMap (partitionSink passThrough part)) ∧
        (∀ i, st.queues i = []) ∧ ∀ i, (groups i).Perm (st.groups i))) = true) :
    Formed wholePartition concatBatchBytes passThrough part cut groups := by
  obtain ⟨st, hrun, hst⟩ := Run.exists_of_runLabels labels h
  exact ⟨st, hrun.mono fun _ _ _ => trivial, hst⟩

variable (passThrough : Bool)

theorem rowsAt_partitionSink (part : R → Fin (m + 1)) (batch : List R) (i : Fin (m + 1)) :
    rowsAt i (partitionSink passThrough part batch) =
      batch.filter fun row => partOf passThrough part row = i := by
  cases passThrough with
  | true =>
    by_cases hi : 0 = i
    · simp [rowsAt, partitionSink, partOf, hi]
    · simp [rowsAt, partitionSink, partOf, hi]
  | false =>
    simp only [rowsAt, partitionSink, partOf, Bool.false_eq_true, if_false, filter_map,
      comp_def, flatMap_map]
    have hone : (finRange (m + 1)).filter (fun j => decide (j = i)) = [i] := by
      rw [filter_eq, count_eq_one_of_mem (nodup_finRange _) (mem_finRange i)]
      rfl
    simp [hone]

theorem rowsAt_perm {xs ys : List (Fin (m + 1) × List R)} (h : xs.Perm ys) (i : Fin (m + 1)) :
    (rowsAt i xs).Perm (rowsAt i ys) :=
  (h.filter _).flatMap_right _

theorem rowsAt_flatMap (part : R → Fin (m + 1)) (cut : List (List R)) (i : Fin (m + 1)) :
    rowsAt i (cut.flatMap (partitionSink passThrough part)) =
      cut.flatten.filter fun row => partOf passThrough part row = i := by
  induction cut with
  | nil => rfl
  | cons batch cut ih =>
    rw [flatMap_cons, rowsAt_append, rowsAt_partitionSink, ih, flatten_cons,
      filter_append]

/-- A batch reaches every partition, or partition 0 alone. -/
theorem exists_arrival_iff (part : R → Fin (m + 1)) (cut : List (List R)) (i : Fin (m + 1)) :
    (∀ x ∈ cut.flatMap (partitionSink passThrough part), x.1 ≠ i) ↔
      cut = [] ∨ (passThrough = true ∧ i ≠ 0) := by
  cases cut with
  | nil => simp
  | cons batch cut =>
    cases passThrough with
    | true =>
      simp only [partitionSink, if_true, mem_flatMap, mem_singleton]
      constructor
      · intro h
        exact Or.inr ⟨trivial, Ne.symm (h (0, batch) ⟨batch, mem_cons_self .., rfl⟩)⟩
      · rintro (h | ⟨_, hi⟩) x ⟨_, _, rfl⟩
        · cases h
        · exact Ne.symm hi
    | false =>
      simp only [partitionSink, mem_flatMap]
      constructor
      · intro h
        refine absurd rfl (h (i, batch.filter fun row => part row = i) ⟨batch, ?_, ?_⟩)
        · exact mem_cons_self ..
        · simp
      · rintro (h | ⟨h, _⟩) <;> cases h

/-- What a join relies on, of the groups in one of its ports. -/
structure Grouping (wholePartition passThrough : Bool) (part : R → Fin (m + 1))
    (cut : List (List R)) (groups : Fin (m + 1) → List (List R)) : Prop where
  rows : ∀ i, (groups i).flatten.Perm
    (cut.flatten.filter fun row => partOf passThrough part row = i)
  eq_nil_iff : ∀ i, groups i = [] ↔ cut = [] ∨ (passThrough = true ∧ i ≠ 0)
  whole : wholePartition = true → ∀ i, (groups i).length ≤ 1

/-- **The concat operator in terms of its table**: whatever the sizes, the threshold and the order of
events, each partition's groups hold its rows. -/
theorem Formed.grouping {passThrough : Bool} {part : R → Fin (m + 1)} {cut : List (List R)}
    {groups : Fin (m + 1) → List (List R)}
    (h : Formed wholePartition concatBatchBytes passThrough part cut groups) :
    Grouping wholePartition passThrough part cut groups := by
  obtain ⟨st, hrun, harrived, hempty, hgroups⟩ := h
  have hinv : ConcatInv wholePartition st :=
    hrun.invariant ConcatInv.initial fun h _ hstep => h.step hstep
  refine ⟨fun i => ?_, fun i => ?_, fun hw i => ?_⟩
  · have hrows := hinv.rows i
    rw [hempty i, flatMap_nil, append_nil] at hrows
    rw [← rowsAt_flatMap]
    exact (hgroups i).flatten.trans (hrows ▸ rowsAt_perm harrived i)
  · have harr := hinv.arrivals i
    rw [← exists_arrival_iff passThrough part cut i]
    simp only [hempty i, and_true] at harr
    rw [← length_eq_zero_iff, (hgroups i).length_eq, length_eq_zero_iff, harr]
    exact forall_congr' fun x => by rw [harrived.mem_iff]
  · rw [(hgroups i).length_eq]
    by_cases hi : st.groups i = []
    · simp [hi]
    · exact Nat.le_of_eq (hinv.whole hw i hi).2.2

end Spec

end Sirius.Join
