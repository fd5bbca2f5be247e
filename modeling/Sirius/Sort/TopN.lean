import Sirius.Lib.Fallible
import Sirius.Lib.FirstRows
import Sirius.Sort.Pipeline

/-!
# ORDER BY with LIMIT

TOP_N keeps the first `offset + limit` rows of every batch, and MERGE_TOP_N takes the first
`offset + limit` rows of what all batches kept and drops `offset` of them. The result is a slice of a
sort of the whole table:

    topN_returns_slice_iff : topN returns (sort table)[offset, offset + limit) ↔ Concatenates p batches

The merge concatenates the partial results into one cuDF table, which holds fewer than `2 ^ 31` rows.
Every batch may keep `offset + limit` rows, so that a large limit over several batches is too much for
it, although the result is not (`two_batches_overflow`).
-/

namespace Sirius.Sort

open Lib List

variable {V : Type} [Ord V]

/-! ## cuDF -/

inductive TopNError where
  | internalException (message : String)
  /-- `std::overflow_error` of `cudf::concatenate` -/
  | overflowError
  deriving DecidableEq, Repr

def sizeTypeMax : Nat := 2 ^ 31 - 1

/-- Sorting, and `cudf::top_k_order`: the first `k` indices of a sort of a column without NULLs, in any
order. `cudf::concatenate` keeps the order of the batches, if their rows are not too many. -/
structure TopNCudf (V : Type) [Ord V] extends Cudf V where
  topKOrder : CudfOrder → List (Option V) → Nat → List Nat
  topKOrder_perm (order : CudfOrder) (column : List (Option V)) (k : Nat)
    (hnulls : ∀ cell ∈ column, cell.isSome) : ∃ s : List Nat, s.Perm (List.range column.length) ∧
      s.Pairwise (fun i j =>
        (cudfCompare order .after (column.getD i none) (column.getD j none)).isLE) ∧
      (topKOrder order column k).Perm (s.take k)
  concatenate : List (Batch V) → Except TopNError (Batch V)
  concatenate_eq_ok {batches : List (Batch V)} (h : (batches.map List.length).sum ≤ sizeTypeMax) :
    concatenate batches = .ok batches.flatten
  concatenate_overflow {batches : List (Batch V)}
    (h : sizeTypeMax < (batches.map List.length).sum) :
    concatenate batches = .error .overflowError

def TopNCudf.reference (V : Type) [Ord V] [Std.TransOrd V] : TopNCudf V where
  toCudf := Cudf.reference V
  topKOrder order column k :=
    ((List.range column.length).insertionSort fun i j =>
      (cudfCompare order .after (column.getD i none) (column.getD j none)).isLE).take k
  topKOrder_perm order column k _ := by
    have htotal : Std.Total fun i j : Nat =>
        ((cudfCompare order .after (column.getD i none) (column.getD j none)).isLE : Prop) := by
      refine ⟨fun i j => ?_⟩
      rw [← Std.OrientedCmp.isGE_iff_isLE (a := column.getD i none)]
      cases cudfCompare order .after (column.getD i none) (column.getD j none) <;> simp
    have htrans : IsTrans Nat fun i j : Nat =>
        ((cudfCompare order .after (column.getD i none) (column.getD j none)).isLE : Prop) :=
      ⟨fun _ _ _ => Std.TransCmp.isLE_trans⟩
    exact ⟨_, List.perm_insertionSort _ _, List.pairwise_insertionSort _ _, .rfl⟩
  concatenate batches := if (batches.map List.length).sum ≤ sizeTypeMax then .ok batches.flatten
    else .error .overflowError
  concatenate_eq_ok h := if_pos h
  concatenate_overflow h := if_neg (Nat.not_le.2 h)

/-- The one table that MERGE_TOP_N works on. A single batch is copied. -/
def combine (cudf : TopNCudf V) : List (Batch V) → Except TopNError (Batch V)
  | [batch] => .ok batch
  | batches => cudf.concatenate batches

/-! ## The operators -/

/-- The operator as the planner makes it: there are keys, they are columns of the input, and
`offset + limit` is a `cudf::size_type`. -/
structure TopN where
  orders : List BoundOrderByNode
  limit : Nat
  offset : Nat
  numColumns : Nat
  orders_ne_nil : orders ≠ []
  index_lt : ∀ node ∈ orders, node.index < numColumns
  fits : limit + offset < 2 ^ 31

def column (index : Nat) (batch : Batch V) : List (Option V) := batch.map fun row => row.getD index none

section Operators

variable (cudf : TopNCudf V) (p : TopN)

def sortByKey (orders : List BoundOrderByNode) (input : Batch V) : Batch V :=
  cudf.sort (orderKeyIdx orders) (cudfColumns orders) input

def computeTopNTable (input : Batch V) : Except TopNError (Batch V) :=
  if p.limit = 0 ∨ input.length = 0 then .ok []
  else
    let keepRows := min input.length (p.offset + p.limit)
    match p.orders with
    | [] => .error (.internalException "TopN requires at least one ordering key")
    | [node] =>
      if keepRows = 0 then .ok []
      else if p.numColumns ≤ node.index then
        .error (.internalException "TopN order index out of range")
      else if (column node.index input).any Option.isNone then
        .ok ((sortByKey cudf [node] input).take keepRows)
      else
        -- The indices come in any order, so the rows are sorted once more.
        let indices := cudf.topKOrder (toCudfOrder node.type) (column node.index input) keepRows
        let gathered := indices.map fun i => input.getD i []
        .ok (sortByKey cudf [node] gathered)
    | orders =>
      if keepRows = 0 then .ok []
      else if orders.any fun node => p.numColumns ≤ node.index then
        .error (.internalException "TopN order index out of range")
      else .ok ((sortByKey cudf orders input).take keepRows)

def TopN.execute (inputBatches : List (Batch V)) : Except TopNError (List (Batch V)) :=
  if p.limit = 0 then .ok []
  else
    match inputBatches with
    | [] => .ok []
    | [batch] => do
      let table ← computeTopNTable cudf p batch
      return [table]
    | _ => .error (.internalException "TopN expects a single input batch per execution")

def TopN.mergeExecute (inputBatches : List (Batch V)) : Except TopNError (List (Batch V)) :=
  if p.limit = 0 then .ok []
  else if inputBatches.isEmpty then .ok []
  else do
    let combined ← combine cudf inputBatches
    let table ← computeTopNTable cudf p combined
    return [if table.length ≤ p.offset then []
      else if 0 < p.offset then table.drop p.offset else table]

/-- A task for each batch, and then one that merges everything they gave; without a batch there is no
such task. -/
def topN (batches : List (Batch V)) : Except TopNError (List (Batch V)) := do
  let partials ← batches.mapM fun batch => p.execute cudf [batch]
  if partials.flatten.isEmpty then return [] else p.mergeExecute cudf partials.flatten

end Operators

/-! ## The rows that are kept -/

section Kept

variable (cudf : TopNCudf V) (p : TopN)

abbrev TopN.Precedes (r r' : Row V) : Prop :=
  Sort.Precedes (orderKeyIdx p.orders) (cudfColumns p.orders) r r'

/-- Without NULLs their place makes no difference. -/
theorem cudfCompare_some (order : CudfOrder) (nulls nulls' : CudfNullOrder) {a b : Option V}
    (ha : a.isSome) (hb : b.isSome) : cudfCompare order nulls a b = cudfCompare order nulls' a b := by
  obtain ⟨x, rfl⟩ := Option.isSome_iff_exists.1 ha
  obtain ⟨y, rfl⟩ := Option.isSome_iff_exists.1 hb
  rfl

theorem precedes_iff [Std.TransOrd V] (orders : List BoundOrderByNode) (r r' : Row V) :
    Sort.Precedes (orderKeyIdx orders) (cudfColumns orders) r r' ↔
      (sqlCompareRows orders r r').isLE := by
  rw [Sort.Precedes, cudfCompareKeys_gather]

theorem precedes_single (node : BoundOrderByNode) (r r' : Row V) :
    Sort.Precedes (orderKeyIdx [node]) (cudfColumns [node]) r r' ↔
      (cudfCompare (toCudfOrder node.type) (toCudfNullOrder node.type node.nullOrder)
        (r.getD node.index none) (r'.getD node.index none)).isLE := by
  simp [Sort.Precedes, orderKeyIdx, cudfColumns, gather, cudfCompareKeys]

omit [Ord V] in
theorem map_getD_range (input : Batch V) :
    (range input.length).map (fun i => input.getD i []) = input := by
  apply ext_getElem
  · simp
  · intro i _ hi
    simp [getD_eq_getElem?_getD, hi]

theorem firstOf_topKOrder (node : BoundOrderByNode) {input : Batch V}
    (hnulls : ∀ cell ∈ column node.index input, cell.isSome) (k : Nat) :
    FirstOf (Sort.Precedes (orderKeyIdx [node]) (cudfColumns [node])) k input
      (sortByKey cudf [node]
        ((cudf.topKOrder (toCudfOrder node.type) (column node.index input) k).map
          fun i => input.getD i [])) := by
  obtain ⟨s, hs, hsorted, hperm⟩ :=
    cudf.topKOrder_perm (toCudfOrder node.type) (column node.index input) k hnulls
  have hlength : (column node.index input).length = input.length := length_map _
  rw [hlength] at hs
  apply FirstOf.of_perm_take (s := s.map fun i => input.getD i [])
  · conv_rhs => rw [← map_getD_range input]
    exact hs.map _
  · rw [pairwise_map]
    apply hsorted.imp_of_mem
    intro i j hi hj hle
    have hcell {i : Nat} (hi : i ∈ s) : (column node.index input).getD i none =
        (input.getD i []).getD node.index none := by
      have hi := mem_range.1 (hs.subset hi)
      simp [column, getD_eq_getElem?_getD, hi]
    have hsome {i : Nat} (hi : i ∈ s) : ((input.getD i []).getD node.index none).isSome := by
      rw [← hcell hi]
      have hi := mem_range.1 (hs.subset hi)
      rw [← hlength] at hi
      have hget : (column node.index input).getD i none = (column node.index input)[i] := by
        simp [getD_eq_getElem?_getD, hi]
      rw [hget]
      exact hnulls _ (getElem_mem hi)
    rw [hcell hi, hcell hj] at hle
    rw [precedes_single, cudfCompare_some _ _ .after (hsome hi) (hsome hj)]
    exact hle
  · rw [← map_take]
    exact (cudf.sort_perm ..).trans (hperm.map _)
  · exact cudf.sort_sorted ..

theorem firstOf_sortByKey (orders : List BoundOrderByNode) (input : Batch V) (k : Nat) :
    FirstOf (Sort.Precedes (orderKeyIdx orders) (cudfColumns orders)) k input
      ((sortByKey cudf orders input).take k) :=
  .of_sorted (cudf.sort_perm ..) (cudf.sort_sorted ..)

/-- **TOP_N.** The rows that are kept are the first rows of the batch. -/
theorem computeTopNTable_ok (hlimit : p.limit ≠ 0) (input : Batch V) :
    ∃ kept, computeTopNTable cudf p input = .ok kept ∧
      FirstOf p.Precedes (p.offset + p.limit) input kept := by
  unfold computeTopNTable TopN.Precedes
  split
  next hempty =>
    have hnil : input = [] := eq_nil_of_length_eq_zero (hempty.resolve_left hlimit)
    subst hnil
    exact ⟨[], rfl, .nil, by simp, [], .rfl, by simp⟩
  rename_i hrows
  have hkeep : min input.length (p.offset + p.limit) ≠ 0 := by omega
  simp only [if_neg hkeep]
  split
  next horders =>
    exact absurd horders p.orders_ne_nil
  next node horders =>
    rw [horders]
    have hindex := p.index_lt node (by simp [horders])
    rw [if_neg (by omega)]
    split
    · exact ⟨_, rfl, (firstOf_sortByKey cudf [node] input _).of_min⟩
    next hnulls =>
      refine ⟨_, rfl, (firstOf_topKOrder cudf node ?_ _).of_min⟩
      intro cell hcell
      by_contra hnone
      exact hnulls (any_eq_true.2 ⟨cell, hcell, by simpa using hnone⟩)
  · have hindex : ¬ (p.orders.any fun node => decide (p.numColumns ≤ node.index)) = true := by
      simpa using p.index_lt
    rw [if_neg hindex]
    exact ⟨_, rfl, (firstOf_sortByKey cudf p.orders input _).of_min⟩

theorem execute_ok (hlimit : p.limit ≠ 0) (batch : Batch V) :
    ∃ kept, p.execute cudf [batch] = .ok [kept] ∧
      FirstOf p.Precedes (p.offset + p.limit) batch kept := by
  obtain ⟨kept, hkept, hfirst⟩ := computeTopNTable_ok cudf p hlimit batch
  refine ⟨kept, ?_, hfirst⟩
  simp only [TopN.execute, if_neg hlimit, hkept]
  rfl

theorem mapM_execute_ok (hlimit : p.limit ≠ 0) (batches : List (Batch V)) :
    ∃ kepts, List.Forall₂ (FirstOf p.Precedes (p.offset + p.limit)) batches kepts ∧
      (batches.mapM fun batch => p.execute cudf [batch]) = .ok (kepts.map fun kept => [kept]) := by
  simp only [mapM_eq_ok_iff]
  induction batches with
  | nil => exact ⟨[], .nil, .nil⟩
  | cons batch batches ih =>
    obtain ⟨kept, hkept, hfirst⟩ := execute_ok cudf p hlimit batch
    obtain ⟨kepts, hfirsts, hkepts⟩ := ih
    exact ⟨kept :: kepts, .cons hfirst hfirsts, .cons hkept hkepts⟩

omit [Ord V] in
theorem drop_offset (table : Batch V) (offset : Nat) :
    (if table.length ≤ offset then [] else if 0 < offset then table.drop offset else table) =
      table.drop offset := by
  split
  next h =>
    rw [drop_of_length_le h]
  split
  · rfl
  next h =>
    rw [Nat.eq_zero_of_not_pos h, drop_zero]

/-- The partial results are one batch, or together they are a cuDF table. -/
def Combines (kepts : List (Batch V)) : Prop :=
  kepts.length ≤ 1 ∨ (kepts.map List.length).sum ≤ sizeTypeMax

variable {kepts : List (Batch V)}

theorem combine_eq_ok (hne : kepts ≠ []) (h : Combines kepts) :
    combine cudf kepts = .ok kepts.flatten := by
  unfold combine
  split
  · simp
  next hsingle =>
    rcases h with hlen | hsum
    · have hone : kepts.length = 1 := by
        have := length_pos_iff.2 hne
        omega
      obtain ⟨batch, rfl⟩ := length_eq_one_iff.1 hone
      exact absurd rfl (hsingle batch)
    · exact cudf.concatenate_eq_ok hsum

theorem combine_eq_error (h : ¬ Combines kepts) : combine cudf kepts = .error .overflowError := by
  unfold Combines at h
  unfold combine
  split
  · simp at h
  · exact cudf.concatenate_overflow (by omega)

/-- **MERGE_TOP_N.** The rows after the offset of the first rows of all partial results. -/
theorem mergeExecute_eq_ok (hlimit : p.limit ≠ 0) (hne : kepts ≠ []) (hcombines : Combines kepts) :
    ∃ kept, p.mergeExecute cudf kepts = .ok [kept.drop p.offset] ∧
      FirstOf p.Precedes (p.offset + p.limit) kepts.flatten kept := by
  obtain ⟨kept, hkept, hfirst⟩ := computeTopNTable_ok cudf p hlimit kepts.flatten
  refine ⟨kept, ?_, hfirst⟩
  have hempty : kepts.isEmpty = false := by simpa using hne
  simp only [TopN.mergeExecute, if_neg hlimit, hempty, combine_eq_ok cudf hne hcombines, hkept,
    drop_offset, bind, Except.bind, pure, Except.pure]
  rfl

theorem mergeExecute_eq_error (hlimit : p.limit ≠ 0) (hcombines : ¬ Combines kepts) :
    p.mergeExecute cudf kepts = .error .overflowError := by
  have hempty : kepts.isEmpty = false := by
    cases kepts with
    | nil => simp [Combines] at hcombines
    | cons => rfl
  simp only [TopN.mergeExecute, if_neg hlimit, hempty, combine_eq_error cudf hcombines, bind, Except.bind]
  rfl

end Kept

/-! ## The result -/

/-- What the query asks for: the positions from `offset` of some sort of the table, `limit` of them. -/
def TopN.IsResult (p : TopN) (table result : Batch V) : Prop :=
  ∃ s : Batch V, s.Perm table ∧ s.Pairwise (fun r r' => (sqlCompareRows p.orders r r').isLE) ∧
    result = (s.drop p.offset).take p.limit

/-- The partial results of the batches fit one cuDF table, or need not be put into one. -/
def Concatenates (p : TopN) (batches : List (Batch V)) : Prop :=
  p.limit = 0 ∨ batches.length ≤ 1 ∨
    (batches.map fun batch => min (p.offset + p.limit) batch.length).sum < 2 ^ 31

section Result

variable (cudf : TopNCudf V) (p : TopN) {batches kepts : List (Batch V)}

theorem TopN.IsResult.length {p : TopN} {table result : Batch V} (h : p.IsResult table result) :
    result.length = min p.limit (table.length - p.offset) := by
  obtain ⟨s, hperm, -, rfl⟩ := h
  rw [length_take, length_drop, hperm.length_eq]

theorem concatenates_iff (hlimit : p.limit ≠ 0)
    (h : List.Forall₂ (FirstOf p.Precedes (p.offset + p.limit)) batches kepts) :
    Concatenates p batches ↔ Combines kepts := by
  have hsum : (batches.map fun batch => min (p.offset + p.limit) batch.length) =
      kepts.map length := by
    induction h with
    | nil => rfl
    | cons hfirst _ ih => simp [ih, hfirst.length]
  rw [Concatenates, Combines, hsum, h.length_eq, sizeTypeMax]
  constructor
  · intro hc
    rcases hc with hc | hc | hc
    · exact absurd hc hlimit
    · exact .inl hc
    · exact .inr (by omega)
  · intro hc
    rcases hc with hc | hc
    · exact .inr (.inl hc)
    · exact .inr (.inr (by omega))

/-- Without a limit there is nothing to return. -/
theorem topN_limit_zero (hlimit : p.limit = 0) (batches : List (Batch V)) :
    topN cudf p batches = .ok [] := by
  have hexecute : (batches.mapM fun batch => p.execute cudf [batch]) =
      .ok (batches.map fun _ => []) := by
    rw [mapM_eq_ok_iff]
    induction batches with
    | nil => exact .nil
    | cons batch batches ih => exact .cons (if_pos hlimit) ih
  have hflatten : (batches.map fun _ => ([] : List (Batch V))).flatten.isEmpty = true := by simp
  rw [topN, hexecute]
  exact if_pos hflatten

theorem topN_eq_merge (hlimit : p.limit ≠ 0) (batches : List (Batch V)) :
    ∃ kepts, List.Forall₂ (FirstOf p.Precedes (p.offset + p.limit)) batches kepts ∧
      topN cudf p batches = if kepts.isEmpty then .ok [] else p.mergeExecute cudf kepts := by
  obtain ⟨kepts, hfirsts, hkepts⟩ := mapM_execute_ok cudf p hlimit batches
  refine ⟨kepts, hfirsts, ?_⟩
  have hflatten : (kepts.map fun kept => [kept]).flatten = kepts := by
    rw [← flatMap_def, flatMap_singleton']
  rw [topN, hkepts]
  show (if ((kepts.map fun kept => [kept]).flatten).isEmpty then _ else _) = _
  rw [hflatten]
  rfl

theorem topN_overflow (h : ¬ Concatenates p batches) :
    topN cudf p batches = .error .overflowError := by
  have hlimit : p.limit ≠ 0 := fun hlimit => h (.inl hlimit)
  obtain ⟨kepts, hfirsts, htopN⟩ := topN_eq_merge cudf p hlimit batches
  have hcombines := fun hc => h ((concatenates_iff p hlimit hfirsts).2 hc)
  have hne : ¬ kepts.isEmpty = true := by
    intro hempty
    rw [isEmpty_iff.1 hempty] at hcombines
    exact hcombines (.inl (by simp))
  rw [htopN, if_neg hne, mergeExecute_eq_error cudf p hlimit hcombines]

variable [Std.TransOrd V]

theorem isResult_of_firstOf {table kept : Batch V}
    (h : FirstOf p.Precedes (p.offset + p.limit) table kept) :
    p.IsResult table (kept.drop p.offset) := by
  obtain ⟨s, hperm, hsorted, rfl⟩ := h.exists_sort
  refine ⟨s, hperm, ?_, ?_⟩
  · exact hsorted.imp fun hle => (precedes_iff ..).1 hle
  · rw [drop_take, Nat.add_sub_cancel_left]

theorem topN_isResult (h : Concatenates p batches) :
    ∃ output, topN cudf p batches = .ok output ∧ p.IsResult batches.flatten output.flatten := by
  by_cases hlimit : p.limit = 0
  · refine ⟨[], topN_limit_zero cudf p hlimit batches, sortByKey cudf p.orders batches.flatten,
      cudf.sort_perm .., ?_, ?_⟩
    · exact (cudf.sort_sorted ..).imp fun hle => (precedes_iff ..).1 hle
    · simp [hlimit]
  · obtain ⟨kepts, hfirsts, htopN⟩ := topN_eq_merge cudf p hlimit batches
    rw [htopN]
    by_cases hne : kepts = []
    · subst hne
      cases hfirsts
      exact ⟨[], rfl, [], .rfl, .nil, by simp⟩
    · obtain ⟨kept, hkept, hfirst⟩ :=
        mergeExecute_eq_ok cudf p hlimit hne ((concatenates_iff p hlimit hfirsts).1 h)
      refine ⟨_, (if_neg (by simpa using hne)).trans hkept, ?_⟩
      rw [flatten_singleton]
      exact isResult_of_firstOf p (FirstOf.flatten hfirsts hfirst)

/-- **Top-N.** The operators return the positions `offset, ..., offset + limit - 1` of some sort of the
whole table, however it is cut, iff the partial results fit a table of cuDF. -/
theorem topN_returns_slice_iff (cudf : TopNCudf V) (p : TopN) (batches : List (Batch V)) :
    (∃ output, topN cudf p batches = .ok output ∧ p.IsResult batches.flatten output.flatten ∧
      output.flatten.length = min p.limit (batches.flatten.length - p.offset)) ↔
      Concatenates p batches := by
  constructor
  · intro ⟨output, houtput, _⟩
    by_contra hc
    rw [topN_overflow cudf p hc] at houtput
    cases houtput
  · intro hc
    obtain ⟨output, houtput, hresult⟩ := topN_isResult cudf p hc
    exact ⟨output, houtput, hresult, hresult.length⟩

end Result

def byFirstColumn (limit : Nat) (h : limit < 2 ^ 31) : TopN where
  orders := [⟨0, .ascending, .nullsLast⟩]
  limit
  offset := 0
  numColumns := 1
  orders_ne_nil := List.cons_ne_nil _ _
  index_lt := by simp
  fits := h

/-- `LIMIT 2 OFFSET 1`. -/
def secondAndThird : TopN := { byFirstColumn 2 (by decide) with offset := 1, fits := by decide }

theorem topN_returns_slice_iff_small :
    ∃ output, topN (TopNCudf.reference Nat) secondAndThird
        [[[some 3], [some 1]], [], [[none], [some 2]]] = .ok output ∧
      secondAndThird.IsResult [[some 3], [some 1], [none], [some 2]] output.flatten ∧
      output.flatten.length = 2 :=
  (topN_returns_slice_iff (TopNCudf.reference Nat) secondAndThird
    [[[some 3], [some 1]], [], [[none], [some 2]]]).2 (.inr (.inr (by decide)))

omit [Ord V] in
theorem not_concatenates_pair {p : TopN} {batch batch' : Batch V} (hlimit : p.limit ≠ 0)
    (h : 2 ^ 31 ≤ min (p.offset + p.limit) batch.length + min (p.offset + p.limit) batch'.length) :
    ¬ Concatenates p [batch, batch'] := by
  intro hc
  rcases hc with hc | hc | hc
  · exact hlimit hc
  · simp at hc
  · simp only [map_cons, map_nil, sum_cons, sum_nil] at hc
    omega

/-- Two batches of `2 ^ 30` rows under a limit of `2 ^ 30`: the merge throws. -/
theorem two_batches_overflow :
    topN (TopNCudf.reference Nat) (byFirstColumn (2 ^ 30) (by decide))
      [List.replicate (2 ^ 30) [some 0], List.replicate (2 ^ 30) [some 1]] =
      .error .overflowError := by
  apply topN_overflow
  apply not_concatenates_pair
  · show 2 ^ 30 ≠ 0
    decide
  · rw [length_replicate, length_replicate]
    show 2 ^ 31 ≤ min (0 + 2 ^ 30) (2 ^ 30) + min (0 + 2 ^ 30) (2 ^ 30)
    decide

end Sirius.Sort
