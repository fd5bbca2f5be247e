import Sirius.Sort.Pipeline

/-!
# ORDER BY returns a sorted permutation

In every state the rows in flight are the rows of the input, and every batch behind ORDER is sorted:
a piece of a sorted batch is sorted, whatever the boundaries are. The boundaries only have to be
ascending, or `cudf::slice` would refuse them. The merge task sees all batches at once, cut or not.
-/

namespace Sirius.Sort

open Lib List

variable {V : Type}

/-! ## What the operators do to a batch -/

section Operators

variable (p : OrderBy V)

theorem popSample_append (accumulated : Nat) (batches : List (Batch V)) :
    (popSample p accumulated batches).1 ++ (popSample p accumulated batches).2 = batches := by
  fun_induction popSample p accumulated batches with
  | case1 => rfl
  | case2 => rfl
  | case3 accumulated batch batches _ sample rest hpop ih =>
    rw [hpop] at ih
    exact congrArg (batch :: ·) ih

variable {batches : List (Batch V)}

theorem popSample_ne_nil (accumulated : Nat) (h : batches ≠ []) :
    (popSample p accumulated batches).1 ≠ [] := by
  fun_cases popSample p accumulated batches with
  | case1 => exact absurd rfl h
  | case2 | case3 => exact cons_ne_nil _ _

theorem nextTaskInputData_append (s : State V) :
    (nextTaskInputData p s).1 ++ (nextTaskInputData p s).2 = s.sorted := by
  unfold nextTaskInputData
  split
  · exact take_append_drop 1 s.sorted
  · exact popSample_append p 0 s.sorted

variable {s : State V} {batch : Batch V}

theorem nextTaskInputData_ne_nil (h : s.sorted ≠ []) : (nextTaskInputData p s).1 ≠ [] := by
  unfold nextTaskInputData
  split
  · simpa using h
  · exact popSample_ne_nil p 0 h

theorem OrderBy.projections_ne_nil (h : p.projections ≠ range p.width) :
    p.projections ≠ [] := by
  intro hnil
  unfold OrderBy.projections at h hnil
  split at hnil
  next hmap =>
    exact h (if_pos hmap)
  next hmap =>
    exact hmap (isEmpty_iff.2 hnil)

theorem finalProjection_eq (h : ∀ row ∈ batch, row.length = p.width) :
    finalProjection p batch = batch.map (gather p.projections) := by
  unfold finalProjection OrderBy.finalProjections
  by_cases hrange : p.projections = range p.width
  · have hid (row) (hrow : row ∈ batch) : gather p.projections row = row := by
      rw [hrange, ← h row hrow, gather_range]
    rw [if_pos hrange, isEmpty_nil, if_pos rfl, map_congr_left hid, map_id']
  · rw [if_neg hrange, if_neg]
    exact fun hnil => p.projections_ne_nil hrange (isEmpty_iff.1 hnil)

variable [Ord V]

theorem OrderBy.Sorted.sublist {p : OrderBy V} {rows rows' : Batch V} (h : p.Sorted rows)
    (hsub : rows'.Sublist rows) : p.Sorted rows' :=
  List.Pairwise.sublist hsub h

theorem order_eq (cudf : Cudf V) (h : ∀ row ∈ batch, row.length = p.width) :
    order cudf p batch = cudf.sort p.indices p.columns batch := by
  have hid (row) (hrow : row ∈ cudf.sort p.indices p.columns batch) :
      gather (range p.width) row = row := by
    rw [← h row ((cudf.sort_perm ..).mem_iff.1 hrow)]
    exact gather_range row
  exact (map_congr_left hid).trans (map_id _)

end Operators

/-! ## Cutting -/

section Cutting

variable [Ord V] (cudf : Cudf V) (p : OrderBy V) {batches : List (Batch V)} {s : State V}

theorem mergedSample_sorted (h : ∀ batch ∈ batches, p.Sorted batch) :
    p.Sorted (mergedSample cudf p batches) := by
  unfold mergedSample
  split
  · exact h _ (mem_singleton.2 rfl)
  · exact cudf.merge_sorted _ _ h

theorem exists_computeBoundaries (memory : Nat) (batches : List (Batch V)) (s : State V) :
    ∃ numPartitions boundaries, computeBoundaries cudf p memory batches s =
      { s with boundaryState := .done, numPartitions, boundaries } := by
  unfold computeBoundaries
  split
  · exact ⟨_, _, rfl⟩
  · dsimp only
    split <;> exact ⟨_, _, rfl⟩

variable [Std.TransOrd V] {i : Nat} {boundaries : List (Row V)}

theorem boundaryIndex_mono {parts totalRows j : Nat} (h : i ≤ j) :
    boundaryIndex parts totalRows i ≤ boundaryIndex parts totalRows j := by
  have hdiv : i * totalRows / parts ≤ j * totalRows / parts :=
    Nat.div_le_div_right (Nat.mul_le_mul_right _ h)
  unfold boundaryIndex
  split <;> split <;> omega

theorem boundaryIndex_lt {totalRows : Nat} (h : totalRows ≠ 0) (parts i : Nat) :
    boundaryIndex parts totalRows i < totalRows := by
  unfold boundaryIndex
  split <;> omega

def Ascending (keys : List (Row V)) : Prop :=
  keys.Pairwise fun a b => (cudfCompareKeys p.columns a b).isLE

theorem boundaryKeys_ascending {sample : Batch V} (h : p.Sorted sample) (hne : sample.length ≠ 0)
    (parts : Nat) : Ascending p (boundaryKeys p parts sample) := by
  apply pairwise_map.2
  refine (pairwise_le_range' 1).imp fun {i j} hij => ?_
  have hi := boundaryIndex_lt hne parts i
  have hj := boundaryIndex_lt hne parts j
  rw [getD_eq_getElem?_getD, getD_eq_getElem?_getD, getElem?_eq_getElem hi,
    getElem?_eq_getElem hj]
  rcases (boundaryIndex_mono hij).lt_or_eq with hlt | heq
  · exact pairwise_iff_getElem.1 h _ _ hi hj hlt
  · simp only [heq]
    exact Std.ReflCmp.isLE_rfl

theorem computeBoundaries_ascending (memory : Nat) (h : ∀ batch ∈ batches, p.Sorted batch)
    (hs : Ascending p s.boundaries) :
    Ascending p (computeBoundaries cudf p memory batches s).boundaries := by
  unfold computeBoundaries
  split
  · exact hs
  · dsimp only
    split
    · exact List.Pairwise.nil
    next hparts =>
      exact boundaryKeys_ascending p (mergedSample_sorted cudf p h) (by tauto) _

theorem lowerBound_ascending (h : Ascending p boundaries) (batch : Batch V) :
    (boundaries.map (lowerBound p batch)).Pairwise (· ≤ ·) := by
  apply pairwise_map.2
  refine h.imp fun {b b'} hle => length_takeWhile_le (fun row hrow => ?_) batch
  rw [Ordering.isLT_iff_eq_lt] at hrow ⊢
  exact Std.TransCmp.lt_of_lt_of_isLE hrow hle

theorem exists_cutBatch (h : Ascending p boundaries) (batch : Batch V) :
    ∃ pieces, cutBatch p boundaries batch = some pieces ∧ pieces.flatten = batch ∧
      ∀ piece ∈ pieces, piece.Sublist batch := by
  unfold cutBatch
  split
  next hempty =>
    exact ⟨[], rfl, (isEmpty_iff.1 hempty).symm, fun _ h => (not_mem_nil h).elim⟩
  · have hle : ∀ cut ∈ 0 :: boundaries.map (lowerBound p batch), cut ≤ batch.length := by
      intro cut hcut
      rcases mem_cons.1 hcut with rfl | hcut
      · exact Nat.zero_le _
      · obtain ⟨b, -, rfl⟩ := mem_map.1 hcut
        exact (takeWhile_sublist _).length_le
    obtain ⟨pieces, hpieces, hflatten, hsub⟩ := exists_slices
      (pairwise_cons.2 ⟨fun _ _ => Nat.zero_le _, lowerBound_ascending p h batch⟩) hle
    refine ⟨_, by rw [hpieces]; rfl, ?_, fun piece hp => hsub piece (mem_filter.1 hp).1⟩
    rw [← flatten_filter_not_isEmpty] at hflatten
    exact hflatten

/-- SORT_PARTITION never fails, and what comes out are the rows that went in, in sorted batches. -/
theorem exists_sortPartition (h : Ascending p s.boundaries)
    (hsorted : ∀ batch ∈ batches, p.Sorted batch) :
    ∃ out, sortPartition p s batches = some out ∧ out.flatten = batches.flatten ∧
      ∀ batch ∈ out, p.Sorted batch := by
  unfold sortPartition
  split
  · exact ⟨batches, rfl, rfl, hsorted⟩
  · induction batches with
    | nil => exact ⟨[], rfl, rfl, hsorted⟩
    | cons batch batches ih =>
      obtain ⟨pieces, hpieces, hflatten, hsub⟩ := exists_cutBatch p h batch
      obtain ⟨out, hout, hrows, hbatches⟩ := ih fun b hb => hsorted b (.tail _ hb)
      obtain ⟨rest, hrest, rfl⟩ := Option.map_eq_some_iff.1 hout
      refine ⟨pieces ++ rest.flatten, by simp [hpieces, hrest], by simp [hflatten, hrows], ?_⟩
      intro b hb
      rcases mem_append.1 hb with hb | hb
      · exact (hsorted batch (by simp)).sublist (hsub b hb)
      · exact hbatches b hb

end Cutting

/-! ## Every step -/

namespace State

variable (s : State V)

def runs : List (Batch V) := s.sorted ++ s.tasks.flatMap Task.batches ++ s.partitioned

def rows : List (Row V) := s.input.flatten ++ s.runs.flatten

end State

variable {i : Nat} {t : Task V}

theorem perm_cons_eraseIdx {α : Type} {l : List α} {a : α} (h : l[i]? = some a) :
    (a :: l.eraseIdx i).Perm l := by
  obtain ⟨hi, rfl⟩ := List.getElem?_eq_some_iff.1 h
  exact List.getElem_cons_eraseIdx_perm hi

theorem flatMap_batches_set {tasks : List (Task V)} (h : tasks[i]? = some t) (stage : Stage) :
    (tasks.set i { t with stage }).flatMap Task.batches = tasks.flatMap Task.batches := by
  obtain ⟨hi, rfl⟩ := List.getElem?_eq_some_iff.1 h
  rw [List.flatMap_def, List.map_set, List.flatMap_def]
  congr 1
  apply List.ext_getElem (by simp)
  intro j hj hj'
  rw [List.getElem_set]
  split
  next heq =>
    subst heq
    simp
  · rfl

/-- What the query asks for: the rows of the input in the order of the keys, with the columns of the
projection. -/
def IsResult [Ord V] (p : OrderBy V) (input : List (Batch V)) (result : List (Row V)) : Prop :=
  ∃ rows : List (Row V), rows.Perm input.flatten ∧
    rows.Pairwise (fun r r' => (sqlCompareRows p.orders r r').isLE) ∧
    result = rows.map (gather p.projections)

structure Inv [Ord V] (p : OrderBy V) (input : List (Batch V)) (s : State V) : Prop where
  sorted : ∀ batch ∈ s.runs, p.Sorted batch
  ascending : Ascending p s.boundaries
  failed : s.failed = false
  rows : s.output = none → s.rows.Perm input.flatten
  finished : s.output.isSome → s.upstreamFinished
  result : ∀ out, s.output = some out → IsResult p input out.flatten

section Step

variable [Ord V] {cudf : Cudf V} {p : OrderBy V} {input : List (Batch V)} {batches : List (Batch V)}
  {batch : Batch V} {s s' : State V}

/-- **MERGE_SORT.** Sorted batches with the rows of the input give the result. -/
theorem mergeSort_isResult [Std.TransOrd V]
    (hwidth : ∀ batch ∈ input, ∀ row ∈ batch, row.length = p.width)
    (hsorted : ∀ batch ∈ batches, p.Sorted batch) (hperm : batches.flatten.Perm input.flatten) :
    IsResult p input (mergeSort cudf p batches).flatten := by
  have hresult (rows : Batch V) (hrows : rows.Perm batches.flatten) (hsort : p.Sorted rows) :
      IsResult p input (finalProjection p rows) := by
    refine ⟨rows, hrows.trans hperm, ?_, finalProjection_eq p fun row hrow => ?_⟩
    · exact hsort.imp fun {r r'} h => by rwa [Precedes, cudfCompareKeys_gather] at h
    · obtain ⟨batch, hbatch, hmem⟩ := mem_flatten.1 ((hrows.trans hperm).mem_iff.1 hrow)
      exact hwidth batch hbatch row hmem
  unfold mergeSort
  split
  · exact ⟨[], hperm, List.Pairwise.nil, rfl⟩
  next batch =>
    simpa using hresult batch (by simp) (hsorted batch (by simp))
  · simpa using hresult _ (cudf.merge_perm ..) (cudf.merge_sorted _ _ hsorted)

/-- Before the merge, a step that keeps rows in sorted batches is all that is needed. -/
theorem Inv.of_pending (hout : s.output = none) (hsorted : ∀ batch ∈ s.runs, p.Sorted batch)
    (hasc : Ascending p s.boundaries) (hfailed : s.failed = false)
    (hrows : s.rows.Perm input.flatten) : Inv p input s where
  sorted := hsorted
  ascending := hasc
  failed := hfailed
  rows _ := hrows
  finished h := by
    rw [hout] at h
    cases h
  result _ h := by
    rw [hout] at h
    cases h

theorem Inv.init (input : List (Batch V)) : Inv p input { input } :=
  .of_pending rfl (fun _ h => by simp [State.runs] at h) List.Pairwise.nil rfl (by
    simp [State.rows, State.runs])

theorem step_finished {l : Label} (hfin : s.upstreamFinished) (hout : s.output.isSome)
    (h : step cudf p s l = some s') : ∃ ready, s' = { s with ready } := by
  obtain ⟨⟨hinput, hsorted⟩, htasks⟩ :
      (s.input = [] ∧ s.sorted = []) ∧ s.tasks = [] := by
    simpa [State.upstreamFinished] using hfin
  cases l with
  | order i => simp [step, hinput] at h
  | hint =>
    obtain ⟨-, rfl⟩ : _ ∧ _ = s' := by simpa [step] using h
    exact ⟨_, rfl⟩
  | create =>
    have happ := nextTaskInputData_append p s
    rw [hsorted, append_eq_nil_iff] at happ
    obtain ⟨-, rfl⟩ : _ ∧ _ = s' := by simpa [step, happ] using h
    exact ⟨s.ready - 1, by rw [hsorted]⟩
  | sample | compute | reschedule | partition => simp [step, htasks] at h
  | merge => simp [step, hfin, Option.isSome_iff_ne_none.1 hout] at h

section Running

variable (hinv : Inv p input s) (hout : s.output = none)
  (hwidth : ∀ batch ∈ input, ∀ row ∈ batch, row.length = p.width)

include hinv hout

theorem Inv.of_runs (hinput : s'.input = s.input)
    (hruns : s'.runs.Perm s.runs) (hout' : s'.output = s.output) (hfailed : s'.failed = s.failed)
    (hasc : Ascending p s'.boundaries) : Inv p input s' := by
  refine .of_pending (hout'.trans hout) ?_ hasc (hfailed.trans hinv.failed) ?_
  · exact fun batch hbatch => hinv.sorted batch (hruns.mem_iff.1 hbatch)
  · rw [State.rows, hinput]
    exact (hruns.flatten.append_left _).trans (hinv.rows hout)

theorem Inv.of_task (ht : s.tasks[i]? = some t)
    (stage : Stage) {boundaryState : BoundaryState} {numPartitions : Nat}
    {boundaries : List (Row V)} (hasc : Ascending p boundaries) :
    Inv p input { s with
      boundaryState, numPartitions, boundaries, tasks := s.tasks.set i { t with stage } } := by
  refine hinv.of_runs hout rfl (.of_eq ?_) rfl rfl hasc
  rw [State.runs, flatMap_batches_set ht]
  rfl

include hwidth in
theorem Inv.order  (hbatch : s.input[i]? = some batch) :
    Inv p input
      { s with input := s.input.eraseIdx i, sorted := s.sorted ++ [Sort.order cudf p batch] } := by
  have hrows := hinv.rows hout
  have hlen : ∀ row ∈ batch, row.length = p.width := by
    intro row hrow
    have hmem : row ∈ s.rows :=
      mem_append_left _ (mem_flatten.2 ⟨batch, mem_of_getElem? hbatch, hrow⟩)
    obtain ⟨b, hb, hrow⟩ := mem_flatten.1 (hrows.mem_iff.1 hmem)
    exact hwidth b hb row hrow
  rw [order_eq p cudf hlen]
  refine .of_pending hout ?_ hinv.ascending hinv.failed (.trans ?_ hrows)
  · intro b hb
    simp only [State.runs, mem_append, mem_singleton] at hb
    rcases hb with ((hb | rfl) | hb) | hb
    · exact hinv.sorted b (mem_append_left _ (mem_append_left _ hb))
    · exact cudf.sort_sorted ..
    · exact hinv.sorted b (mem_append_left _ (mem_append_right _ hb))
    · exact hinv.sorted b (mem_append_right _ hb)
  · have htaken : (cudf.sort p.indices p.columns batch ++ (s.input.eraseIdx i).flatten).Perm
        s.input.flatten :=
      ((cudf.sort_perm ..).append_right _).trans (perm_cons_eraseIdx hbatch).flatten
    simp only [State.rows, State.runs, flatten_append, flatten_singleton,
      append_assoc]
    refine ((perm_append_comm_assoc ..).append_left _).trans ?_
    refine (perm_append_comm_assoc ..).trans ?_
    rw [← append_assoc]
    exact htaken.append_right _

theorem Inv.create :
    Inv p input { s with
      ready := s.ready - 1
      sorted := (nextTaskInputData p s).2
      tasks := if (nextTaskInputData p s).1.isEmpty then s.tasks
        else s.tasks ++ [{ batches := (nextTaskInputData p s).1 }] } := by
  refine hinv.of_runs hout rfl ?_ rfl rfl hinv.ascending
  have htasks : (if (nextTaskInputData p s).1.isEmpty then s.tasks
      else s.tasks ++ [{ batches := (nextTaskInputData p s).1 }]).flatMap Task.batches =
      s.tasks.flatMap Task.batches ++ (nextTaskInputData p s).1 := by
    split
    next hempty =>
      rw [isEmpty_iff.1 hempty, append_nil]
    · simp
  rw [State.runs, State.runs, htasks]
  conv_rhs => rw [← nextTaskInputData_append p s]
  refine List.Perm.append_right _ ?_
  rw [← append_assoc, append_assoc (nextTaskInputData p s).1]
  exact perm_append_comm

variable [Std.TransOrd V]

theorem Inv.partition (ht : s.tasks[i]? = some t) :
    ∃ batches, sortPartition p s t.batches = some batches ∧
      Inv p input
        { s with tasks := s.tasks.eraseIdx i, partitioned := s.partitioned ++ batches } := by
  have hperm : (t.batches ++ (s.tasks.eraseIdx i).flatMap Task.batches).Perm
      (s.tasks.flatMap Task.batches) := by
    simpa using (perm_cons_eraseIdx ht).flatMap_right Task.batches
  have hsorted : ∀ batch ∈ t.batches, p.Sorted batch := fun batch hbatch =>
    hinv.sorted batch (mem_append_left _ (mem_append_right _
      (hperm.mem_iff.1 (mem_append_left _ hbatch))))
  obtain ⟨batches, hbatches, hflatten, hpieces⟩ := exists_sortPartition p hinv.ascending hsorted
  refine ⟨batches, hbatches, .of_pending hout ?_ hinv.ascending hinv.failed
    (.trans ?_ (hinv.rows hout))⟩
  · intro b hb
    simp only [State.runs, mem_append] at hb
    rcases hb with (hb | hb) | hb | hb
    · exact hinv.sorted b (mem_append_left _ (mem_append_left _ hb))
    · exact hinv.sorted b (mem_append_left _ (mem_append_right _
        (hperm.mem_iff.1 (mem_append_right _ hb))))
    · exact hinv.sorted b (mem_append_right _ hb)
    · exact hpieces b hb
  · simp only [State.rows, State.runs, flatten_append, append_assoc, hflatten]
    refine (List.Perm.append_left _ ?_).append_left _
    rw [← append_assoc]
    refine (perm_append_comm).trans ?_
    rw [← append_assoc, ← flatten_append]
    exact hperm.flatten.append_right _

include hwidth in
theorem Inv.merge (hfin : s.upstreamFinished) :
    Inv p input
      { s with partitioned := [], output := some (mergeSort cudf p s.partitioned) } := by
  obtain ⟨⟨hinput, hsorted⟩, htasks⟩ :
      (s.input = [] ∧ s.sorted = []) ∧ s.tasks = [] := by
    simpa [State.upstreamFinished] using hfin
  have hruns : s.runs = s.partitioned := by simp [State.runs, hsorted, htasks]
  have hrows : s.partitioned.flatten.Perm input.flatten := by
    simpa [State.rows, hinput, hruns] using hinv.rows hout
  refine ⟨?_, hinv.ascending, hinv.failed, nofun, fun _ => hfin, ?_⟩
  · intro batch hbatch
    simp [State.runs, hsorted, htasks] at hbatch
  · rintro out ⟨⟩
    exact mergeSort_isResult hwidth (hruns ▸ hinv.sorted) hrows

end Running

variable [Std.TransOrd V]

/-- **Step.** Every step keeps the rows, in sorted batches behind ORDER. -/
theorem Inv.step {l : Label} (hwidth : ∀ batch ∈ input, ∀ row ∈ batch, row.length = p.width)
    (hinv : Inv p input s) (h : Sort.step cudf p s l = some s') : Inv p input s' := by
  rcases hout : s.output with _ | out
  case some =>
    have hsome : s.output.isSome := by rw [hout]; rfl
    obtain ⟨ready, rfl⟩ := step_finished (hinv.finished hsome) hsome h
    exact ⟨hinv.sorted, hinv.ascending, hinv.failed, hinv.rows, hinv.finished, hinv.result⟩
  cases l with
  | order i =>
    obtain ⟨batch, hbatch, rfl⟩ : ∃ batch, s.input[i]? = some batch ∧ _ = s' := by
      simpa [Sort.step, Option.bind_eq_some_iff] using h
    exact hinv.order hout hwidth hbatch
  | hint =>
    obtain ⟨-, rfl⟩ : _ ∧ _ = s' := by simpa [Sort.step] using h
    exact hinv.of_runs hout rfl (.refl _) rfl rfl hinv.ascending
  | create =>
    obtain ⟨-, rfl⟩ : _ ∧ _ = s' := by simpa only [Sort.step, Option.ite_none_left_eq_some,
      Option.some.injEq] using h
    exact hinv.create hout
  | sample i =>
    obtain ⟨t, ht, -, rfl⟩ : ∃ t, s.tasks[i]? = some t ∧ t.stage = .sampling ∧ s.elect i t = s' := by
      simpa [Sort.step, Option.bind_eq_some_iff] using h
    unfold State.elect
    split
    · exact hinv.of_task hout ht .computing hinv.ascending
    · exact hinv.of_task hout ht .partitioning hinv.ascending
    · exact hinv.of_task hout ht .partitioning hinv.ascending
  | compute i memory =>
    obtain ⟨t, ht, -, rfl⟩ : ∃ t, s.tasks[i]? = some t ∧ t.stage = .computing ∧ _ = s' := by
      simpa [Sort.step, Option.bind_eq_some_iff] using h
    have hsorted : ∀ batch ∈ t.batches, p.Sorted batch := fun batch hbatch =>
      hinv.sorted batch (mem_append_left _ (mem_append_right _
        (mem_flatMap.2 ⟨t, mem_of_getElem? ht, hbatch⟩)))
    have hasc := computeBoundaries_ascending cudf p memory hsorted
      (s := { s with tasks := s.tasks.set i { t with stage := .partitioning } }) hinv.ascending
    obtain ⟨numPartitions, boundaries, heq⟩ := exists_computeBoundaries cudf p memory t.batches
      { s with tasks := s.tasks.set i { t with stage := .partitioning } }
    rw [heq] at hasc ⊢
    exact hinv.of_task hout ht .partitioning hasc
  | reschedule i =>
    obtain ⟨t, ht, rfl⟩ : ∃ t, s.tasks[i]? = some t ∧ _ = s' := by
      simpa [Sort.step, Option.bind_eq_some_iff] using h
    exact hinv.of_task hout ht .sampling hinv.ascending
  | partition i =>
    obtain ⟨t, ht, -, h⟩ : ∃ t, s.tasks[i]? = some t ∧ t.stage = .partitioning ∧ _ = some s' := by
      simpa [Sort.step, Option.bind_eq_some_iff] using h
    obtain ⟨batches, hbatches, hinv'⟩ := hinv.partition hout ht
    rw [hbatches] at h
    cases h
    exact hinv'
  | merge =>
    obtain ⟨⟨hfin, -⟩, rfl⟩ : (s.upstreamFinished = true ∧ _) ∧ _ = s' := by
      simpa [Sort.step] using h
    exact hinv.merge hout hwidth hfin

end Step

/-! ## Progress -/

def Stage.work : Stage → Nat
  | .sampling => 3
  | .computing => 2
  | .partitioning => 1

/-- What is left to do, with one unit for a hint that the task creator still needs. -/
def State.work (s : State V) : Nat :=
  6 * s.input.length + 5 * s.sorted.length + (s.tasks.map fun t => t.stage.work).sum +
    (if s.ready = 0 then 1 else 0) + if s.output.isNone then 1 else 0

section Progress

variable [Ord V] [Std.TransOrd V] (cudf : Cudf V) {p : OrderBy V} {input : List (Batch V)}
  {s : State V}

/-- A task can always take its next step. -/
theorem exists_task_step (hinv : Inv p input s) (hout : s.output = none) {tasks : List (Task V)}
    (htasks : s.tasks = t :: tasks) : ∃ l s', step cudf p s l = some s' ∧ s'.work < s.work := by
  have ht : s.tasks[0]? = some t := by rw [htasks]; rfl
  cases hstage : t.stage with
  | sampling =>
    refine ⟨.sample 0, s.elect 0 t, by simp [step, ht, hstage], ?_⟩
    unfold State.elect
    split <;> simp [State.work, htasks, hstage, Stage.work]
  | computing =>
    obtain ⟨numPartitions, boundaries, heq⟩ := exists_computeBoundaries cudf p 0 t.batches
      { s with tasks := s.tasks.set 0 { t with stage := .partitioning } }
    refine ⟨.compute 0 0, _, by simp [step, ht, hstage, heq]; rfl, ?_⟩
    simp [State.work, htasks, hstage, Stage.work]
  | partitioning =>
    obtain ⟨batches, hbatches, -⟩ := hinv.partition hout ht
    refine ⟨.partition 0, _, by simp [step, ht, hstage, hbatches]; rfl, ?_⟩
    simp [State.work, htasks, hstage, Stage.work]

/-- Before the merge there is always a step that leaves less to do. -/
theorem exists_step (hinv : Inv p input s) (hout : s.output = none) :
    ∃ l s', step cudf p s l = some s' ∧ s'.work < s.work := by
  rcases hinput : s.input with _ | ⟨batch, rest⟩
  case cons =>
    refine ⟨.order 0, _, by simp [step, hinput]; rfl, ?_⟩
    simp [State.work, hinput]
    omega
  rcases htasks : s.tasks with _ | ⟨t, tasks⟩
  case cons => exact exists_task_step cudf hinv hout htasks
  rcases hsorted : s.sorted with _ | ⟨batch, rest⟩
  case nil =>
    refine ⟨.merge, _, by simp [step, State.upstreamFinished, hinput, hsorted, htasks, hout]; rfl, ?_⟩
    simp [State.work, hout, hinput, hsorted, htasks]
  -- the producer is finished, so that the creator is told to go on with whatever there is
  by_cases hready : s.ready = 0
  · have hhint : nextTaskReady p s = true := by
      unfold nextTaskReady
      split <;> simp [hinput, hsorted]
    refine ⟨.hint, _, by simp [step, hhint]; rfl, ?_⟩
    simp [State.work, hready]
  · refine ⟨.create, _, by simp [step, hready]; rfl, ?_⟩
    have hne := nextTaskInputData_ne_nil p (s := s) (by rw [hsorted]; exact cons_ne_nil _ _)
    have hlen := congrArg length (nextTaskInputData_append p s)
    have hpos := length_pos_iff.2 hne
    rw [length_append] at hlen
    simp [State.work, hready, hne, htasks, Stage.work]
    split <;> omega

end Progress

/-! ## Every run -/

/-- **ORDER BY.** In every run over the batches of a table, whatever the sample and however the tasks
interleave, no task fails, the output of MERGE_SORT is the sorted permutation of the input, and from
every state a run leads to the output. -/
theorem orderBy_sorted [Ord V] [Std.TransOrd V] (cudf : Cudf V) (p : OrderBy V)
    (input : List (Batch V)) (hwidth : ∀ batch ∈ input, ∀ row ∈ batch, row.length = p.width)
    (s : State V) (hrun : Run (step cudf p) (fun _ _ => True) { input } s) :
    s.failed = false ∧ (∀ out, s.output = some out → IsResult p input out.flatten) ∧
      ∃ s', Run (step cudf p) (fun _ _ => True) s s' ∧ s'.output.isSome := by
  have hinv : Inv p input s := hrun.invariant (Inv.init input) fun h _ hl => h.step hwidth hl
  refine ⟨hinv.failed, hinv.result, ?_⟩
  have hprogress : ∃ s', Run (step cudf p) (fun _ _ => True) s s' ∧ Inv p input s' ∧
      s'.output.isSome := by
    refine Run.exists_of_measure _ _ State.work (fun a ha => ?_) hinv
    rcases hout : a.output with _ | out
    · obtain ⟨l, b, hl, hlt⟩ := exists_step cudf ha hout
      exact .inr ⟨b, Run.single l trivial hl, ha.step hwidth hl, hlt⟩
    · exact .inl rfl
  obtain ⟨s', hrun', -, hout⟩ := hprogress
  exact ⟨s', hrun', hout⟩

/-- Two batches, of which only the second one is cut: the first task is still in the election when the
other one passes. -/
def uncutBatch : OrderBy Nat where
  orders := [⟨0, .ascending, .nullsLast⟩]
  projectionMap := []
  width := 1
  estimatedCardinality := 5
  sortSampleBytes := 1
  maxPartitionBytes := 1
  bytes := List.length

theorem orderBy_sorted_uncutBatch :
    ∃ s, Run (step (Cudf.reference Nat) uncutBatch) (fun _ _ => True)
      { input := [[[some 2], [none], [some 1]], [[some 3], [some 0]]] } s ∧
      s.output = some [[[some 0], [some 1], [some 2], [some 3], [none]]] ∧ s.failed = false := by
  obtain ⟨s, hrun, hout⟩ :
      ∃ s, Run (step (Cudf.reference Nat) uncutBatch) (fun _ _ => true = true)
        { input := [[[some 2], [none], [some 1]], [[some 3], [some 0]]] } s ∧
        s.output = some [[[some 0], [some 1], [some 2], [some 3], [none]]] := by
    apply Run.exists_of_runLabels [Label.order 0, Label.order 0, Label.hint, Label.hint,
      Label.create, Label.create, Label.sample 0, Label.sample 1, Label.partition 1,
      Label.compute 0 0, Label.partition 0, Label.merge]
    decide
  have hrun := hrun.mono fun _ _ _ => trivial
  exact ⟨s, hrun, hout, (orderBy_sorted _ _ _ (by decide) s hrun).1⟩

end Sirius.Sort
