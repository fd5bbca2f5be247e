import Mathlib.Data.List.Chain
import Sirius.Native.Decode

/-!
# The splits of a scan

Whatever the batch size, the batches of `partition_row_groups_into_batches` are the row groups in order,
and no batch has more characters in a string column than cuDF can address. The loop is greedy: a batch is
closed only if the next row group would have broken one of the caps (`partition_batches`).
-/

namespace Sirius.Native

open Expression (LogicalType)
open Lib List

def charsOf (ci : Nat) (split : List RowGroupMetadata) : Nat :=
  (split.map fun rg => rg.varcharBytesPerCol.getD ci 0).sum

/-- The strings of a split stay below the limit of cuDF. -/
def Capped (projectedTypes : List LogicalType) (split : List RowGroupMetadata) : Prop :=
  ∀ ci, isVarcharColumn projectedTypes ci = true → charsOf ci split < cudfInt32StringsThreshold

@[simp]
theorem charsOf_nil (ci : Nat) : charsOf ci [] = 0 := rfl

theorem charsOf_append_singleton (ci : Nat) (split : List RowGroupMetadata) (rg : RowGroupMetadata) :
    charsOf ci (split ++ [rg]) = charsOf ci split + rg.varcharBytesPerCol.getD ci 0 := by
  simp [charsOf]

section Batches

variable {approximateBatchSize : Nat} {projectedTypes : List LogicalType} {done : List RowGroupMetadata}
  {s : Batching} {rg : RowGroupMetadata} {rowGroups : List RowGroupMetadata}
  {batches : List (List RowGroupMetadata)}

/-- What holds after some row groups: they are all in a batch, in order, and no batch has too many
characters. -/
structure Batching.Inv (projectedTypes : List LogicalType) (done : List RowGroupMetadata)
    (s : Batching) : Prop where
  flatten : s.batches.flatten ++ s.current = done
  closed : ∀ batch ∈ s.batches, batch ≠ [] ∧ Capped projectedTypes batch
  current : Capped projectedTypes s.current
  colBytes : ∀ ci < projectedTypes.length, s.colBytes[ci]? = some (charsOf ci s.current)

theorem lt_length_of_isVarcharColumn {ci : Nat} (h : isVarcharColumn projectedTypes ci = true) :
    ci < projectedTypes.length := by
  by_contra hlt
  rw [isVarcharColumn, getElem?_eq_none (by omega)] at h
  cases h

theorem capped_nil : Capped projectedTypes [] :=
  fun _ _ => show 0 < cudfInt32StringsThreshold by decide

theorem Batching.inv_init : (Batching.init projectedTypes).Inv projectedTypes [] where
  flatten := rfl
  closed := nofun
  current := capped_nil
  colBytes := fun ci hci => by simp [Batching.init, hci]

section

variable (h : s.Inv projectedTypes done)

include h

theorem Batching.Inv.close (hne : s.current ≠ []) :
    (s.close projectedTypes).Inv projectedTypes done where
  flatten := by simpa [Batching.close, Batching.init] using h.flatten
  closed := by
    intro batch hbatch
    rcases mem_append.1 hbatch with hbatch | hbatch
    · exact h.closed batch hbatch
    · obtain rfl := mem_singleton.1 hbatch
      exact ⟨hne, h.current⟩
  current := Batching.inv_init.current
  colBytes := Batching.inv_init.colBytes

section

variable (hlength : rg.varcharBytesPerCol.length = projectedTypes.length)

include hlength

/-- The sums of the characters if the row group is added. -/
theorem Batching.Inv.colBytes_add {ci : Nat} (hci : ci < projectedTypes.length) :
    (zipWith (· + ·) s.colBytes rg.varcharBytesPerCol)[ci]? =
      some (charsOf ci (s.current ++ [rg])) := by
  have hrg : rg.varcharBytesPerCol[ci]? = some (rg.varcharBytesPerCol.getD ci 0) := by
    simp [hlength, hci]
  rw [getElem?_zipWith, h.colBytes ci hci, hrg, charsOf_append_singleton]

theorem Batching.Inv.append (hcapped : Capped projectedTypes (s.current ++ [rg])) :
    (s.append rg).Inv projectedTypes (done ++ [rg]) where
  flatten := by
    rw [← h.flatten]
    simp [Batching.append]
  closed := h.closed
  current := hcapped
  colBytes := fun _ hci => h.colBytes_add hlength hci

theorem Batching.Inv.capped_of_not_wouldExceedVarchar
    (hexceed : s.wouldExceedVarchar projectedTypes rg = false) :
    Capped projectedTypes (s.current ++ [rg]) := by
  intro ci hci
  have hlt := lt_length_of_isVarcharColumn hci
  rw [isVarcharColumn, getElem?_eq_getElem hlt, Option.any_some] at hci
  have hmem : (projectedTypes[ci], charsOf ci (s.current ++ [rg])) ∈
      projectedTypes.zip (zipWith (· + ·) s.colBytes rg.varcharBytesPerCol) :=
    mem_of_getElem? (i := ci) (getElem?_zip_eq_some.2
      ⟨getElem?_eq_getElem hlt, h.colBytes_add hlength hlt⟩)
  have := any_eq_false.1 hexceed _ hmem
  simpa [hci] using this

end

end

/-- A row group alone is below the limit, because the walker has checked it. -/
theorem capped_singleton (hbytes : ∀ b ∈ rg.varcharBytesPerCol, b < cudfInt32StringsThreshold) :
    Capped projectedTypes [rg] := by
  intro ci _
  by_cases hlt : ci < rg.varcharBytesPerCol.length
  · simpa [charsOf, hlt] using hbytes _ (getElem_mem hlt)
  · simp [charsOf, hlt, cudfInt32StringsThreshold]

theorem Batching.Inv.add (h : s.Inv projectedTypes done)
    (hlength : rg.varcharBytesPerCol.length = projectedTypes.length)
    (hcapped : Capped projectedTypes [rg]) :
    (s.add approximateBatchSize projectedTypes rg).Inv projectedTypes (done ++ [rg]) := by
  unfold Batching.add
  split
  next hclose =>
    rw [Bool.and_eq_true, Bool.not_eq_true', isEmpty_eq_false_iff] at hclose
    exact (h.close hclose.1).append hlength hcapped
  next hkeep =>
    refine h.append hlength ?_
    by_cases hempty : s.current = []
    · rw [hempty]
      exact hcapped
    · refine h.capped_of_not_wouldExceedVarchar hlength ?_
      simp [hempty] at hkeep
      exact hkeep.2

def budgetOf (batch : List RowGroupMetadata) : Nat := (batch.map (·.decodedBytesBudget)).sum

/-- With the row group the batch would break one of the caps. -/
def Breaks (approximateBatchSize : Nat) (projectedTypes : List LogicalType)
    (batch : List RowGroupMetadata) (rg : RowGroupMetadata) : Prop :=
  (0 < approximateBatchSize ∧ approximateBatchSize < budgetOf (batch ++ [rg])) ∨
    ∃ ci, isVarcharColumn projectedTypes ci = true ∧
      cudfInt32StringsThreshold ≤ charsOf ci (batch ++ [rg])

/-- What holds of the caps after some row groups. Only the first batch can be empty. -/
structure Batching.Greedy (approximateBatchSize : Nat) (projectedTypes : List LogicalType)
    (s : Batching) : Prop where
  bytes : s.batchBytes = budgetOf s.current
  started : s.current = [] → s.batches = []
  within : ∀ batch ∈ s.batches ++ [s.current], 1 < batch.length → 0 < approximateBatchSize →
    budgetOf batch ≤ approximateBatchSize
  tight : (s.batches ++ [s.current]).IsChain fun batch next =>
    ∀ rg ∈ next.head?, Breaks approximateBatchSize projectedTypes batch rg

theorem budgetOf_append_singleton (batch : List RowGroupMetadata) (rg : RowGroupMetadata) :
    budgetOf (batch ++ [rg]) = budgetOf batch + rg.decodedBytesBudget := by
  simp [budgetOf]

theorem Batching.greedy_init :
    (Batching.init projectedTypes).Greedy approximateBatchSize projectedTypes where
  bytes := rfl
  started _ := rfl
  within batch hbatch hlength := by
    obtain rfl := mem_singleton.1 hbatch
    cases hlength
  tight := .singleton _

/-- A closed batch could not have taken the next row group. -/
theorem Batching.Greedy.breaks (h : s.Greedy approximateBatchSize projectedTypes)
    (hinv : s.Inv projectedTypes done)
    (hlength : rg.varcharBytesPerCol.length = projectedTypes.length)
    (hexceed : (s.wouldExceedTotal approximateBatchSize rg ||
      s.wouldExceedVarchar projectedTypes rg) = true) :
    Breaks approximateBatchSize projectedTypes s.current rg := by
  rcases Bool.or_eq_true_iff.1 hexceed with htotal | hvarchar
  · rw [wouldExceedTotal, Bool.and_eq_true, decide_eq_true_eq, decide_eq_true_eq, h.bytes,
      ← budgetOf_append_singleton] at htotal
    exact .inl htotal
  · obtain ⟨⟨type, bytes⟩, hmem, hany⟩ := any_eq_true.1 hvarchar
    obtain ⟨ci, hci⟩ := getElem?_of_mem hmem
    obtain ⟨htype, hbytes⟩ := getElem?_zip_eq_some.1 hci
    have hlt : ci < projectedTypes.length := (List.getElem?_eq_some_iff.1 htype).1
    rw [hinv.colBytes_add hlength hlt, Option.some.injEq] at hbytes
    rw [Bool.and_eq_true, decide_eq_true_eq] at hany
    refine .inr ⟨ci, ?_, hbytes ▸ hany.2⟩
    rw [isVarcharColumn, htype]
    exact hany.1

theorem Batching.Greedy.add (h : s.Greedy approximateBatchSize projectedTypes)
    (hinv : s.Inv projectedTypes done)
    (hlength : rg.varcharBytesPerCol.length = projectedTypes.length) :
    (s.add approximateBatchSize projectedTypes rg).Greedy approximateBatchSize projectedTypes := by
  unfold Batching.add
  split
  next hclose =>
    obtain ⟨_, hexceed⟩ := Bool.and_eq_true_iff.1 hclose
    have hbatches : ((s.close projectedTypes).append rg).batches = s.batches ++ [s.current] := rfl
    have hcurrent : ((s.close projectedTypes).append rg).current = [rg] := rfl
    refine ⟨by simp [Batching.close, Batching.append, Batching.init, budgetOf], fun hnil => ?_, ?_, ?_⟩
    · cases hcurrent.symm.trans hnil
    · rw [hbatches, hcurrent]
      intro batch hbatch
      rcases mem_append.1 hbatch with hbatch | hbatch
      · exact h.within batch hbatch
      · obtain rfl := mem_singleton.1 hbatch
        intro hlt
        cases hlt.ne rfl
    · rw [hbatches, hcurrent]
      apply h.tight.append (.singleton _)
      simpa using h.breaks hinv hlength hexceed
  next hkeep =>
    have hbatches : (s.append rg).batches = s.batches := rfl
    have hcurrent : (s.append rg).current = s.current ++ [rg] := rfl
    have hbytes : (s.append rg).batchBytes = budgetOf (s.current ++ [rg]) := by
      rw [budgetOf_append_singleton, ← h.bytes]
      rfl
    refine ⟨hbytes, fun hnil => by simp [hcurrent] at hnil, ?_, ?_⟩
    · rw [hbatches, hcurrent]
      intro batch hbatch hlt hcap
      rcases mem_append.1 hbatch with hbatch | hbatch
      · exact h.within batch (mem_append_left _ hbatch) hlt hcap
      · -- the batch was not empty, so the total was looked at
        obtain rfl := mem_singleton.1 hbatch
        have hne : s.current ≠ [] := by
          rintro hnil
          rw [hnil] at hlt
          cases hlt.ne rfl
        simp only [wouldExceedTotal, h.bytes, hcap, Bool.and_eq_true, Bool.not_eq_true', decide_eq_true_eq,
          Bool.or_eq_true, true_and] at hkeep
        rw [budgetOf_append_singleton]
        by_contra hexceed
        exact hkeep ⟨isEmpty_eq_false_iff.2 hne, .inl (Nat.not_le.1 hexceed)⟩
    · rw [hbatches, hcurrent]
      by_cases hnil : s.current = []
      · rw [h.started hnil]
        exact .singleton _
      · obtain ⟨hbefore, -, hlast⟩ := isChain_append.1 h.tight
        apply hbefore.append (.singleton _)
        simpa [head?_append_of_ne_nil _ hnil] using hlast

theorem Batching.inv_foldl (h : s.Inv projectedTypes done)
    (hgreedy : s.Greedy approximateBatchSize projectedTypes)
    (hlength : ∀ rg ∈ rowGroups, rg.varcharBytesPerCol.length = projectedTypes.length)
    (hcapped : ∀ rg ∈ rowGroups, Capped projectedTypes [rg]) :
    (rowGroups.foldl (Batching.add approximateBatchSize projectedTypes) s).Inv projectedTypes
      (done ++ rowGroups) ∧
    (rowGroups.foldl (Batching.add approximateBatchSize projectedTypes) s).Greedy approximateBatchSize
      projectedTypes := by
  induction rowGroups generalizing s done with
  | nil => exact ⟨by simpa using h, hgreedy⟩
  | cons rg rowGroups ih =>
    have hstep : (s.add approximateBatchSize projectedTypes rg).Inv projectedTypes (done ++ [rg]) :=
      h.add (hlength rg (by simp)) (hcapped rg (by simp))
    have hrest := ih hstep (hgreedy.add h (hlength rg (by simp)))
      (fun rg' hrg' => hlength rg' (.tail _ hrg')) fun rg' hrg' => hcapped rg' (.tail _ hrg')
    simpa using hrest

section

variable
  (hlength : ∀ rg ∈ rowGroups, rg.varcharBytesPerCol.length = projectedTypes.length)
  (hcapped : ∀ rg ∈ rowGroups, Capped projectedTypes [rg])
  (hbatches : partitionRowGroupsIntoBatches approximateBatchSize projectedTypes rowGroups = batches)

include hlength hcapped hbatches

/-- The batches are those of the loop, unless there is no row group or no cap. -/
theorem partition_cases :
    (rowGroups = [] ∧ batches = []) ∨
      (rowGroups ≠ [] ∧ approximateBatchSize = 0 ∧ Capped projectedTypes rowGroups ∧
        batches = [rowGroups]) ∨
      ∃ s : Batching, s.Inv projectedTypes rowGroups ∧ s.Greedy approximateBatchSize projectedTypes ∧
        s.current ≠ [] ∧ batches = s.batches ++ [s.current] := by
  unfold partitionRowGroupsIntoBatches at hbatches
  split at hbatches
  next hnil => exact .inl ⟨isEmpty_iff.1 hnil, hbatches.symm⟩
  next hne =>
    rw [List.isEmpty_iff] at hne
    split at hbatches
    next hsingle =>
      refine .inr (.inl ⟨hne, hsingle.1, fun ci hci => ?_, hbatches.symm⟩)
      -- Without a string column there is no limit to keep.
      have hlt := lt_length_of_isVarcharColumn hci
      rw [isVarcharColumn, getElem?_eq_getElem hlt, Option.any_some] at hci
      exact absurd hci (by simpa using any_eq_false.1 hsingle.2 _ (getElem_mem hlt))
    next =>
      have hinit : (Batching.init projectedTypes).Greedy approximateBatchSize projectedTypes :=
        Batching.greedy_init
      obtain ⟨hinv, hgreedy⟩ := Batching.inv_foldl Batching.inv_init hinit hlength hcapped
      have hcurrent : (rowGroups.foldl (Batching.add approximateBatchSize projectedTypes)
          (Batching.init projectedTypes)).current ≠ [] := by
        intro hempty
        have hflatten := hinv.flatten
        rw [hempty, hgreedy.started hempty] at hflatten
        exact hne hflatten.symm
      dsimp only at hbatches
      rw [if_neg (by simpa using hcurrent)] at hbatches
      exact .inr (.inr ⟨_, hinv, hgreedy, hcurrent, hbatches.symm⟩)

/-- The batches are the row groups in order, none of them is empty, and their strings stay below the
limit of cuDF. -/
theorem flatten_partition :
    batches.flatten = rowGroups ∧ ∀ batch ∈ batches, batch ≠ [] ∧ Capped projectedTypes batch := by
  rcases partition_cases hlength hcapped hbatches with
    ⟨rfl, rfl⟩ | ⟨hne, -, hall, rfl⟩ | ⟨s, hinv, -, hcurrent, rfl⟩
  · simp
  · simpa using ⟨hne, hall⟩
  · refine ⟨by simpa using hinv.flatten, ?_⟩
    rw [forall_mem_append]
    exact ⟨hinv.closed, by simpa using ⟨hcurrent, hinv.current⟩⟩

end

/-- **Batches**, for every list of row groups whose string columns are below the limit of cuDF, as
the walker checks, every cap and all projected types. The budgets are added without bound, as in
`std::size_t` if those of all row groups sum up to less than `2 ^ 64` bytes. -/
theorem partition_batches {rowGroups : List RowGroupMetadata}
    (hlength : ∀ rg ∈ rowGroups, rg.varcharBytesPerCol.length = projectedTypes.length)
    (hcapped : ∀ rg ∈ rowGroups, Capped projectedTypes [rg]) {batches : List (List RowGroupMetadata)}
    (hbatches : partitionRowGroupsIntoBatches approximateBatchSize projectedTypes rowGroups = batches) :
    (batches.flatten = rowGroups ∧ ∀ batch ∈ batches, batch ≠ [] ∧ Capped projectedTypes batch) ∧
      (∀ batch ∈ batches, 1 < batch.length → 0 < approximateBatchSize →
        budgetOf batch ≤ approximateBatchSize) ∧
      batches.IsChain fun batch next =>
        ∀ rg ∈ next.head?, Breaks approximateBatchSize projectedTypes batch rg := by
  refine ⟨flatten_partition hlength hcapped hbatches, ?_⟩
  rcases partition_cases hlength hcapped hbatches with
    ⟨-, rfl⟩ | ⟨-, hcap, -, rfl⟩ | ⟨s, -, hgreedy, -, rfl⟩
  · simp
  · exact ⟨fun _ _ _ hpos => by omega, .singleton _⟩
  · exact ⟨hgreedy.within, hgreedy.tight⟩

def stringRowGroup (chars : Nat) : RowGroupMetadata where
  rowGroupIndex := 0
  columns := []
  decodedBytesBudget := chars + 4
  varcharBytesPerCol := [chars]

/-- Three row groups under a cap of 20 bytes: the third one would break it. -/
theorem partition_batches_three :
    partitionRowGroupsIntoBatches 20 [.make .varchar] [stringRowGroup 5, stringRowGroup 6, stringRowGroup 7]
      = [[stringRowGroup 5, stringRowGroup 6], [stringRowGroup 7]] ∧
    Breaks 20 [.make .varchar] [stringRowGroup 5, stringRowGroup 6] (stringRowGroup 7) := by
  refine ⟨rfl, ?_⟩
  have hcapped : ∀ rg ∈ [stringRowGroup 5, stringRowGroup 6, stringRowGroup 7],
      Capped [LogicalType.make .varchar] [rg] := by
    simp only [forall_mem_cons, not_mem_nil, false_imp_iff, implies_true, and_true]
    refine ⟨?_, ?_, ?_⟩
    all_goals exact capped_singleton (by decide)
  have hall := partition_batches (by decide) hcapped (rfl : partitionRowGroupsIntoBatches 20
    [LogicalType.make .varchar] [stringRowGroup 5, stringRowGroup 6, stringRowGroup 7] = _)
  exact (isChain_cons_cons.1 hall.2.2).1 _ rfl

/-- A batch is not empty, its row groups are those of the table, and its strings stay below the limit. -/
theorem mem_partitionRowGroupsIntoBatches {split : List RowGroupMetadata}
    (hsplit : split ∈ partitionRowGroupsIntoBatches approximateBatchSize projectedTypes rowGroups)
    (hlength : ∀ rg ∈ rowGroups, rg.varcharBytesPerCol.length = projectedTypes.length)
    (hbytes : ∀ rg ∈ rowGroups, ∀ b ∈ rg.varcharBytesPerCol, b < cudfInt32StringsThreshold) :
    split ≠ [] ∧ split ⊆ rowGroups ∧ Capped projectedTypes split := by
  obtain ⟨hflatten, hall⟩ := flatten_partition hlength (fun rg hrg => capped_singleton (hbytes rg hrg)) rfl
  refine ⟨(hall split hsplit).1, fun rg hrg => ?_, (hall split hsplit).2⟩
  rw [← hflatten]
  exact mem_flatten.2 ⟨split, hsplit, hrg⟩

end Batches

end Sirius.Native
