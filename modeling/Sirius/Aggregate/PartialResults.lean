import Mathlib.Data.List.ReduceOption
import Sirius.Aggregate.Grouped
import Sirius.Lib.Numbered

/-!
# Partial results

HASH_GROUP_BY puts the results of its requests back into their places (`localCells_eq`). Every
aggregation that is used is a fold, so that it can be computed from partial results: the aggregate
columns of a group are the merged columns of its parts (`decomposes_cells`). The one exception is a SUM of
DECIMAL32 values, which loses what does not fit into 32 bits (`sumIn_decimal32`).
-/

namespace Sirius.Aggregate

open Lib List Function
open Sirius.Expression (CudfTypeId)
open Sirius.Sort (Row gather)

/-! ## Requests -/

/-- An entry can be read back from its request: it has a column, or columns of its own. -/
def CudfAggregate.Valid (e : CudfAggregate) : Prop := 0 ≤ e.idx ∨ e.structColIndices ≠ []

variable {i : Nat} {entries : List CudfAggregate}

theorem exists_mem_addRequest {requests : List Request} {columnId c : Int} {n : Nat} :
    (∃ r ∈ addRequest requests columnId n, r.columnId = c ∧ i ∈ r.outputIdx) ↔
      (∃ r ∈ requests, r.columnId = c ∧ i ∈ r.outputIdx) ∨ c = columnId ∧ i = n := by
  unfold addRequest
  split
  next hany =>
    obtain ⟨r₀, hr₀, hid⟩ : ∃ r ∈ requests, r.columnId = columnId := by simpa using hany
    constructor
    · rintro ⟨_, hmem, rfl, hi⟩
      obtain ⟨r, hr, rfl⟩ := mem_map.1 hmem
      split at hi
      next heq =>
        rw [if_pos heq]
        rcases mem_append.1 hi with hi | hi
        · exact .inl ⟨r, hr, rfl, hi⟩
        · exact .inr ⟨heq, mem_singleton.1 hi⟩
      next hne =>
        rw [if_neg hne]
        exact .inl ⟨r, hr, rfl, hi⟩
    · rintro (⟨r, hr, rfl, hi⟩ | ⟨rfl, rfl⟩)
      · refine ⟨_, mem_map_of_mem hr, ?_, ?_⟩ <;> split <;> simp [hi]
      · refine ⟨_, mem_map_of_mem hr₀, ?_, ?_⟩ <;> simp [hid]
  · constructor
    · rintro ⟨r, hr, rfl, hi⟩
      rcases mem_append.1 hr with hr | hr
      · exact .inl ⟨r, hr, rfl, hi⟩
      · obtain rfl := mem_singleton.1 hr
        exact .inr ⟨rfl, mem_singleton.1 hi⟩
    · rintro (⟨r, hr, rfl, hi⟩ | ⟨rfl, rfl⟩)
      · exact ⟨r, mem_append_left _ hr, rfl, hi⟩
      · exact ⟨⟨c, [i]⟩, by simp, rfl, by simp⟩

/-- **Requests.** Every entry is served by the request for its column, and by no other. -/
theorem exists_mem_makeRequests {c : Int} :
    (∃ r ∈ makeRequests entries, r.columnId = c ∧ i ∈ r.outputIdx) ↔
      ∃ e, entries[i]? = some e ∧ e.columnId i = c := by
  induction entries using reverseRecOn with
  | nil => simp [makeRequests]
  | append_singleton entries e ih =>
    have hlast : makeRequests (entries ++ [e]) =
        addRequest (makeRequests entries) (e.columnId entries.length) entries.length := by
      simp [makeRequests, zipIdx_append]
    rw [hlast, exists_mem_addRequest, ih, getElem?_append]
    by_cases hi : i < entries.length
    · simp [hi, hi.ne]
    · rw [if_neg hi, getElem?_eq_none (Nat.not_lt.1 hi)]
      constructor
      · rintro (⟨_, ⟨⟩, -⟩ | ⟨rfl, rfl⟩)
        exact ⟨e, by simp, rfl⟩
      · rintro ⟨e', he, rfl⟩
        obtain ⟨hlen, rfl⟩ : i - entries.length = 0 ∧ e = e' := by
          cases h : i - entries.length with
          | zero => simpa [h] using he
          | succ m => simp [h] at he
        exact .inr ⟨by rw [Nat.le_antisymm (Nat.sub_eq_zero_iff_le.1 hlen) (Nat.not_lt.1 hi)], by omega⟩

variable {V : Type} [LinearOrder V] (bits : V → BitVec 64) (types : Nat → CudfTypeId)

namespace CudfAggregate

def column (e : CudfAggregate) (rows : List (Row V)) : List (Element V) :=
  if e.structColIndices.isEmpty then rows.map fun row => valueElement (row.getD e.idx.toNat none)
  else rows.map fun row => some (gather e.structColIndices row)

def type (e : CudfAggregate) : CudfTypeId :=
  if e.structColIndices.isEmpty then types e.idx.toNat else .struct

def cell (e : CudfAggregate) (rows : List (Row V)) : Cell V :=
  localAggregation bits (e.type types) e.kind (e.column rows)

end CudfAggregate

theorem CudfAggregate.Valid.idx_nonneg {e : CudfAggregate} (hvalid : e.Valid)
    (hempty : e.structColIndices.isEmpty = true) : ¬e.idx < 0 :=
  Int.not_lt.2 (hvalid.resolve_right fun hne => hne (isEmpty_iff.1 hempty))

omit [LinearOrder V] in
theorem requestColumn_columnId {e : CudfAggregate} (he : entries[i]? = some e) (hvalid : e.Valid)
    (rows : List (Row V)) : requestColumn entries (e.columnId i) rows = e.column rows := by
  unfold requestColumn CudfAggregate.columnId CudfAggregate.column
  by_cases hempty : e.structColIndices.isEmpty
  · rw [if_pos hempty, if_neg (hvalid.idx_nonneg hempty), if_pos hempty]
  · have hneg : -((i : Int) + 1) < 0 := by omega
    have hback : (-(-((i : Int) + 1)) - 1).toNat = i := by omega
    rw [if_neg hempty, if_pos hneg, if_neg hempty, hback, he]
    rfl

theorem requestType_columnId {e : CudfAggregate} (hvalid : e.Valid) :
    requestType types (e.columnId i) = e.type types := by
  unfold requestType CudfAggregate.columnId CudfAggregate.type
  by_cases hempty : e.structColIndices.isEmpty
  · rw [if_pos hempty, if_neg (hvalid.idx_nonneg hempty), if_pos hempty]
  · have hneg : -((i : Int) + 1) < 0 := by omega
    rw [if_neg hempty, if_pos hneg, if_neg hempty]

theorem foldl_set_eq {β : Type} {results : List (Nat × β)} {targets : List β}
    (hresults : ∀ r ∈ results, targets[r.1]? = some r.2)
    (hall : ∀ i < targets.length, i ∈ results.map Prod.fst) :
    results.foldl (fun cols r => cols.set r.1 (some r.2)) (List.replicate targets.length none) =
      targets.map some := by
  refine ext_getElem? fun i => ?_
  rcases foldl_set_cases Prod.fst (fun r => some r.2) results (replicate targets.length none) i with
    ⟨r, hr, rfl, h⟩ | ⟨hno, h⟩
  · have hlt := (List.getElem?_eq_some_iff.1 (hresults r hr)).1
    rw [h, getElem?_map, hresults r hr, getElem?_replicate, if_pos hlt, Option.map_some,
      Option.map_some]
  · have hi : targets.length ≤ i := by
      by_contra hi
      obtain ⟨r, hr, hri⟩ := mem_map.1 (hall i (by omega))
      exact hno r hr hri
    rw [h, getElem?_eq_none (by simpa using hi), getElem?_eq_none (by simpa using hi)]

/-- **Places.** Every entry finds its own result in its place. -/
theorem localCells_eq (hvalid : ∀ e ∈ entries, e.Valid) (rows : List (Row V)) :
    localCells bits types entries rows = .ok (entries.map fun e => e.cell bits types rows) := by
  have hcols : ((makeRequests entries).flatMap (requestResults bits types entries rows)).foldl
      (fun cols r => cols.set r.1 (some r.2)) (replicate entries.length none) =
      (entries.map fun e => e.cell bits types rows).map some := by
    have hlen : (entries.map fun e => e.cell bits types rows).length = entries.length := length_map _
    rw [← hlen]
    refine foldl_set_eq ?_ ?_
    · intro _ hmem
      obtain ⟨r, hr, hmem⟩ := mem_flatMap.1 hmem
      obtain ⟨i, hi, rfl⟩ := mem_map.1 hmem
      obtain ⟨e, he, hid⟩ := exists_mem_makeRequests.1 ⟨r, hr, rfl, hi⟩
      rw [getElem?_map, he, ← hid,
        requestColumn_columnId he (hvalid e (mem_of_getElem? he)),
        requestType_columnId types (hvalid e (mem_of_getElem? he))]
      rfl
    · intro i hi
      rw [length_map] at hi
      obtain ⟨r, hr, -, hmem⟩ := exists_mem_makeRequests.2
        ⟨entries[i], getElem?_eq_getElem hi, rfl⟩
      exact mem_map.2 ⟨_, mem_flatMap.2 ⟨r, hr, mem_map_of_mem hmem⟩, rfl⟩
  have hsome : ((entries.map fun e => e.cell bits types rows).map some).mapM id =
      some (entries.map fun e => e.cell bits types rows) := by
    rw [mapM_eq_some_iff, forall₂_map_left_iff]
    exact forall₂_same.2 fun _ _ => rfl
  unfold localCells
  simp only [hcols, hsome]

theorem localGroupedAggregate_eq (d : DistinctKeys (Row V)) {defs : CudfAggregateDefinitions}
    (hvalid : ∀ e ∈ defs.cudfAggregates, e.Valid) (rows : List (Row V)) :
    localGroupedAggregate bits types d defs rows = .ok (groupBy d (gather defs.groupIdx)
      (fun rows => defs.cudfAggregates.map fun e => e.cell bits types rows) rows) := by
  unfold localGroupedAggregate groupBy
  rw [mapM_map, mapM_eq_ok]
  intro k _
  rw [comp_apply, localCells_eq bits types hvalid]
  rfl

/-! ## Partial results -/

section Decomposition

instance instAssociativeBitVecAdd {w : Nat} : Std.Associative (α := BitVec w) (· + ·) := ⟨BitVec.add_assoc⟩

/-- What a SUM of DECIMAL32 values leaves of a number. -/
def narrow (n : BitVec 64) : BitVec 64 := (n.setWidth 32).signExtend 64

/-- A SUM of DECIMAL32 values is the sum, cut to 32 bits. -/
theorem sumIn_decimal32 (ns : List (Option (BitVec 64))) :
    sumIn .decimal32 ns = (sumOf ns).map narrow := by
  have hcut : sumOf (ns.map (·.map (BitVec.setWidth 32))) = (sumOf ns).map (BitVec.setWidth 32) := by
    induction ns with
    | nil => rfl
    | cons n ns ih =>
      unfold sumOf at ih ⊢
      rw [map_cons, foldr_cons, ih, foldr_cons]
      cases n with
      | none => simp
      | some n =>
        cases foldr (Option.merge (· + ·)) none ns with
        | none => rfl
        | some m => exact congrArg some (BitVec.setWidth_add n m (by decide)).symm
  rw [sumIn, if_pos rfl, hcut, Option.map_map]
  rfl

theorem narrow_eq_self {n : BitVec 64} (h : -2 ^ 31 ≤ n.toInt ∧ n.toInt < 2 ^ 31) : narrow n = n := by
  apply BitVec.eq_of_toInt_eq
  rw [narrow, BitVec.toInt_signExtend_of_le (by decide), BitVec.toInt_setWidth]
  rw [BitVec.toInt_eq_toNat_bmod] at h ⊢
  simp only [Int.bmod] at h ⊢
  omega

theorem sumOf_flatten (nss : List (List (Option (BitVec 64)))) :
    sumOf (nss.map sumOf) = sumOf nss.flatten := foldr_op_flatten nss

theorem sumOf_some {ns : List (BitVec 64)} (h : ns ≠ []) : sumOf (ns.map some) = some ns.sum := by
  induction ns with
  | nil => exact absurd rfl h
  | cons n ns ih =>
    rcases eq_or_ne ns [] with rfl | hne
    · simp [sumOf]
    · have ih := ih hne
      unfold sumOf at ih ⊢
      rw [map_cons, foldr_cons, ih, sum_cons]
      rfl

variable (ess : List (List (Element V))) (entries : List CudfAggregate)

omit [LinearOrder V] in
theorem countValid_flatten : (ess.map countValid).sum = countValid ess.flatten := by
  induction ess with
  | nil => rfl
  | cons es ess ih =>
    rw [map_cons, sum_cons, ih, flatten_cons, countValid, countValid, countValid,
      countP_append, BitVec.ofNat_add]

omit [LinearOrder V] in
theorem length_flatten :
    (ess.map fun es => BitVec.ofNat 64 es.length).sum = BitVec.ofNat 64 ess.flatten.length := by
  induction ess with
  | nil => rfl
  | cons es ess ih =>
    rw [map_cons, sum_cons, ih, flatten_cons, length_append, BitVec.ofNat_add]

theorem setOf_flatten : (ess.map setOf).foldr (· ∪ ·) ∅ = setOf ess.flatten := by
  induction ess with
  | nil => rfl
  | cons es ess ih =>
    rw [map_cons, foldr_cons, ih, flatten_cons, setOf, setOf, setOf,
      reduceOption_append, toFinset_append]

/-- **Merging cells.** The merge form of an aggregation gives its value on all elements. -/
theorem mergeAggregation_local {type : CudfTypeId} (htype : type ≠ .decimal32) (kind : Kind)
    {ess : List (List (Element V))} (hne : ess ≠ []) :
    mergeAggregation kind (ess.map (localAggregation bits type kind)) =
      localAggregation bits type kind ess.flatten := by
  have hnumbers (ns : List (Element V) → BitVec 64) :
      sumOf (ess.map fun es => some (ns es)) = some (ess.map ns).sum := by
    have hmap : ess.map ns ≠ [] := by simpa using hne
    rw [← sumOf_some hmap, map_map]
    rfl
  cases kind with
  | sum =>
    simp only [mergeAggregation, localAggregation, sumIn, if_neg htype, map_map, comp_def, Cell.asNumber,
      map_flatten]
    rw [← sumOf_flatten, map_map]
    rfl
  | countValid =>
    simp only [mergeAggregation, localAggregation, map_map, comp_def, Cell.asNumber]
    rw [hnumbers, countValid_flatten]
  | countAll =>
    simp only [mergeAggregation, localAggregation, map_map, comp_def, Cell.asNumber]
    rw [hnumbers, length_flatten]
  | min =>
    simp only [mergeAggregation, localAggregation, map_map, comp_def, Cell.asValue,
      map_flatten]
    unfold minOf
    rw [← foldr_op_flatten, map_map]
    rfl
  | max =>
    simp only [mergeAggregation, localAggregation, map_map, comp_def, Cell.asValue,
      map_flatten]
    unfold maxOf
    rw [← foldr_op_flatten, map_map]
    rfl
  | collectSet =>
    simp only [mergeAggregation, localAggregation, map_map, comp_def, Cell.asList]
    rw [← setOf_flatten]

theorem sumOf_perm {w : Nat} {ns ns' : List (Option (BitVec w))} (h : ns.Perm ns') : sumOf ns = sumOf ns' :=
  h.foldr_op_eq

theorem localAggregation_perm (type : CudfTypeId) (kind : Kind) {es es' : List (Element V)}
    (h : es.Perm es') : localAggregation bits type kind es = localAggregation bits type kind es' := by
  cases kind with
  | sum =>
    simp only [localAggregation, sumIn, sumOf_perm (h.map _), sumOf_perm ((h.map _).map _)]
  | countValid => simp only [localAggregation, countValid, h.countP_eq]
  | countAll => simp only [localAggregation, h.length_eq]
  | min => simp only [localAggregation, minOf, (h.map _).foldr_op_eq]
  | max => simp only [localAggregation, maxOf, (h.map _).foldr_op_eq]
  | collectSet =>
    simp only [localAggregation, setOf]
    exact congrArg Cell.list (toFinset_eq_of_perm _ _ (h.filterMap id))

omit [LinearOrder V] in
theorem CudfAggregate.column_flatten (e : CudfAggregate) (groups : List (List (Row V))) :
    e.column groups.flatten = (groups.map e.column).flatten := by
  unfold column
  split <;> rw [map_flatten]

theorem cells_perm {rows rows' : List (Row V)} (h : rows.Perm rows') :
    (entries.map fun e => e.cell bits types rows) = entries.map fun e => e.cell bits types rows' := by
  refine map_congr_left fun e _ => localAggregation_perm bits _ e.kind ?_
  unfold CudfAggregate.column
  split <;> exact h.map _

theorem CudfAggregate.type_ne {types : Nat → CudfTypeId} (htypes : ∀ c, types c ≠ .decimal32)
    (e : CudfAggregate) : e.type types ≠ .decimal32 := by
  unfold type
  split
  · exact htypes _
  · decide

theorem decomposes_cells {types : Nat → CudfTypeId} (htypes : ∀ c, types c ≠ .decimal32) :
    Decomposes (fun rows : List (Row V) => entries.map fun e => e.cell bits types rows)
      (mergeCells entries) := by
  intro groups hne _
  unfold mergeCells
  apply ext_getElem (by simp)
  intro i hi hi'
  have hlt : i < entries.length := by simpa using hi'
  have hentry (group : List (Row V)) :
      (entries.map fun e => e.cell bits types group).getD i default = entries[i].cell bits types group := by
    simp [getD_eq_getElem?_getD, hlt]
  simp only [getElem_map, getElem_zipIdx, Nat.zero_add, map_map, comp_def,
    hentry]
  unfold CudfAggregate.cell
  rw [CudfAggregate.column_flatten, ← mergeAggregation_local bits (CudfAggregate.type_ne htypes _) _ (by simpa using hne), map_map]
  rfl

end Decomposition

end Sirius.Aggregate
