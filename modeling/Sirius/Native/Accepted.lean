import Mathlib.Algebra.Order.BigOperators.Group.List
import Sirius.Native.Decode

/-!
# What a viable table guarantees

DuckDB cuts the rows of a row group into segments, for the data and for the validity of every column
(`DataTable.Tiled`). The loop of the walker distributes the segments over the row groups and columns
(`foldlM_addSegment`), so that a row group of a viable table has only validity codecs that can be
staged, segments that lie within its rows, and strings below the limit of cuDF (`Accepted`).
-/

namespace Sirius.Native

open Expression (LogicalType)
open Lib List

/-! ## Tiles -/

/-- The segments follow each other from row `first` to row `last`. -/
def Consecutive (first last : Nat) : List StorageSegment → Prop
  | [] => first = last
  | seg :: segs => seg.segmentStart = first ∧ Consecutive (first + seg.segmentCount) last segs

/-- The segments cover `rows` rows, each exactly once. -/
def Tiles (rows : Nat) (segs : List StorageSegment) : Prop :=
  ∃ sorted : List StorageSegment, sorted.Perm segs ∧ Consecutive 0 rows sorted

variable {segs : List StorageSegment} {rows : Nat}

theorem Consecutive.sum_eq {first last : Nat} (h : Consecutive first last segs) :
    first + (segs.map (·.segmentCount)).sum = last := by
  induction segs generalizing first with
  | nil => exact h
  | cons seg segs ih =>
    have := ih h.2
    simp only [map_cons, sum_cons]
    omega

theorem Consecutive.end_le {first last : Nat} (h : Consecutive first last segs)
    {seg : StorageSegment} (hseg : seg ∈ segs) : seg.segmentStart + seg.segmentCount ≤ last := by
  induction segs generalizing first with
  | nil => cases hseg
  | cons seg' segs ih =>
    rcases mem_cons.1 hseg with rfl | hseg
    · have := h.2.sum_eq
      have := h.1
      omega
    · exact ih h.2 hseg

theorem Tiles.sum_eq (h : Tiles rows segs) : (segs.map (·.segmentCount)).sum = rows := by
  obtain ⟨sorted, hperm, hcons⟩ := h
  rw [← List.Perm.sum_nat (hperm.map (·.segmentCount)), ← hcons.sum_eq, Nat.zero_add]

theorem Tiles.end_le (h : Tiles rows segs) {seg : StorageSegment} (hseg : seg ∈ segs) :
    seg.segmentStart + seg.segmentCount ≤ rows := by
  obtain ⟨sorted, hperm, hcons⟩ := h
  exact hcons.end_le (hperm.mem_iff.2 hseg)

/-- The segments of a column tile the rows of its row group. A column may have no validity. -/
structure TiledColumn (rows : Nat) (segs : List StorageSegment) : Prop where
  data : Tiles rows (segs.filter (!isValidityPath ·.columnPath))
  validity : segs.filter (isValidityPath ·.columnPath) = [] ∨
    Tiles rows (segs.filter (isValidityPath ·.columnPath))

theorem TiledColumn.end_le (h : TiledColumn rows segs) {seg : StorageSegment} (hseg : seg ∈ segs) :
    seg.segmentStart + seg.segmentCount ≤ rows := by
  by_cases hpath : isValidityPath seg.columnPath = true
  · have hmem : seg ∈ segs.filter (isValidityPath ·.columnPath) := mem_filter.2 ⟨hseg, hpath⟩
    rcases h.validity with hnil | htiles
    · rw [hnil] at hmem
      cases hmem
    · exact htiles.end_le hmem
  · exact h.data.end_le (mem_filter.2 ⟨hseg, by simpa using hpath⟩)

/-- What DuckDB guarantees of a table: the segments of a row group tile its rows, and the statistics
agree on how many these are. -/
def DataTable.Tiled (storage : DataTable) : Prop :=
  ∀ (rg : Nat) (columnData : Nat → List StorageSegment),
    storage.rowGroups[rg]? = some (some columnData) →
      ∃ rows, (∀ ps ∈ storage.partitionStats[rg]?, ps.count = rows) ∧
        ∀ c, TiledColumn rows (columnData c)

/-! ## The loop over the segments -/

section Walk

variable {storage : DataTable} {projectedCols : List ProjectedColumn}
  {projectedTypes : List LogicalType}

def destined (projectedCols : List ProjectedColumn) (rg ci : Nat) (validitySeg : Bool)
    (seg : ColumnSegmentInfo) : Bool :=
  seg.rowGroupIndex == rg && projectedLookup projectedCols seg.columnId == some ci &&
    isValidityPath seg.columnPath == validitySeg

def descriptors (projectedCols : List ProjectedColumn) (projectedTypes : List LogicalType)
    (segments : List ColumnSegmentInfo) (rg ci : Nat) (validitySeg : Bool) :
    List SegmentDescriptor :=
  (segments.filter (destined projectedCols rg ci validitySeg)).map
    (buildSegmentDescriptor projectedTypes ci)

def filledRowGroup (projectedCols : List ProjectedColumn) (projectedTypes : List LogicalType)
    (handles : List Nat) (segments : List ColumnSegmentInfo) (rg : Nat) : RowGroupMetadata :=
  { emptyRowGroup projectedCols handles rg with
    columns := (emptyRowGroup projectedCols handles rg).columns.mapIdx fun ci col =>
      { col with
        dataSegments := descriptors projectedCols projectedTypes segments rg ci false
        validitySegments := descriptors projectedCols projectedTypes segments rg ci true } }

theorem descriptors_append_singleton (segments : List ColumnSegmentInfo) (seg : ColumnSegmentInfo)
    (rg ci : Nat) (validitySeg : Bool) :
    descriptors projectedCols projectedTypes (segments ++ [seg]) rg ci validitySeg =
      descriptors projectedCols projectedTypes segments rg ci validitySeg ++
        if destined projectedCols rg ci validitySeg seg then
          [buildSegmentDescriptor projectedTypes ci seg]
        else [] := by
  simp only [descriptors, filter_append, map_append, filter_singleton]
  cases destined projectedCols rg ci validitySeg seg <;> rfl

variable {handles : List Nat} {segments : List ColumnSegmentInfo} {seg : ColumnSegmentInfo}
  {ci rg : Nat} {rowGroups : List RowGroupMetadata}

/-- One more segment is appended to the column that it is destined for. -/
theorem filledRowGroup_push (hci : projectedLookup projectedCols seg.columnId = some ci) :
    (filledRowGroup projectedCols projectedTypes handles segments seg.rowGroupIndex).push
        projectedTypes ci seg =
      filledRowGroup projectedCols projectedTypes handles (segments ++ [seg]) seg.rowGroupIndex := by
  simp only [RowGroupMetadata.push, filledRowGroup, RowGroupMetadata.mk.injEq, true_and, and_true]
  refine ext_getElem? fun i => ?_
  rw [getElem?_modify, getElem?_mapIdx, getElem?_mapIdx, Option.map_eq_map,
    Option.map_map]
  refine Option.map_congr fun col _ => ?_
  simp only [Function.comp_apply, descriptors_append_singleton, destined, hci, beq_self_eq_true,
    Bool.true_and, ColumnMetadata.push]
  by_cases hi : ci = i <;> cases hpath : isValidityPath seg.columnPath <;> simp [hi]

theorem filledRowGroup_append_of_ne
    (h : seg.rowGroupIndex ≠ rg ∨ projectedLookup projectedCols seg.columnId = none) :
    filledRowGroup projectedCols projectedTypes handles (segments ++ [seg]) rg =
      filledRowGroup projectedCols projectedTypes handles segments rg := by
  have hdest : ∀ ci validitySeg, destined projectedCols rg ci validitySeg seg = false := by
    intro ci validitySeg
    rcases h with h | h <;> simp [destined, h]
  simp [filledRowGroup, descriptors_append_singleton, hdest]

/-- The loop returns if no segment is refused, and then every row group has the segments destined for
it, in the order of the table. -/
theorem foldlM_addSegment {n : Nat}
    (h : segments.foldlM (addSegment projectedCols projectedTypes) ((range n).map
      (emptyRowGroup projectedCols handles)) = .ok rowGroups) :
    rowGroups = (range n).map (filledRowGroup projectedCols projectedTypes handles segments) ∧
      ∀ seg ∈ segments, ∀ ci ∈ projectedLookup projectedCols seg.columnId,
        checkCompression seg = .ok () ∧ checkMaxStringLength projectedTypes ci seg = .ok () := by
  induction segments using reverseRecOn generalizing rowGroups with
  | nil =>
    cases h
    refine ⟨map_congr_left fun rg _ => ?_, by simp⟩
    simp only [filledRowGroup, emptyRowGroup, descriptors, filter_nil, map_nil,
      RowGroupMetadata.mk.injEq, true_and, and_true]
    refine ext_getElem? fun i => ?_
    rw [getElem?_mapIdx, getElem?_map, Option.map_map]
    rfl
  | append_singleton segments seg ih =>
    rw [foldlM_append, bind_eq_ok_iff] at h
    obtain ⟨rowGroups', hbefore, hadd⟩ := h
    obtain ⟨rfl, hchecks⟩ := ih hbefore
    rw [foldlM_cons, bind_eq_ok_iff] at hadd
    obtain ⟨_, hadd, ⟨⟩⟩ := hadd
    unfold addSegment at hadd
    split at hadd
    next hci =>
      cases hadd
      refine ⟨map_congr_left fun rg _ => (filledRowGroup_append_of_ne (.inr hci)).symm, ?_⟩
      intro seg' hseg' ci' hci'
      rcases mem_append.1 hseg' with hseg' | hseg'
      · exact hchecks seg' hseg' ci' hci'
      · rw [mem_singleton.1 hseg', hci] at hci'
        cases hci'
    next ci hci =>
      rw [seq_eq_ok_iff, seq_eq_ok_iff] at hadd
      obtain ⟨hcompression, hlength, ⟨⟩⟩ := hadd
      refine ⟨ext_getElem? fun rg => ?_, ?_⟩
      · rw [getElem?_modify, getElem?_map, getElem?_map, Option.map_eq_map,
          Option.map_map]
        refine Option.map_congr fun rg' hrg' => ?_
        obtain rfl : rg = rg' := by
          rw [getElem?_range] at hrg'
          · exact Option.some.inj hrg'
          · by_contra hlt
            rw [getElem?_eq_none (by simpa using hlt)] at hrg'
            cases hrg'
        by_cases hrg : seg.rowGroupIndex = rg
        · subst hrg
          simpa using filledRowGroup_push hci
        · simpa [hrg] using (filledRowGroup_append_of_ne (.inl hrg)).symm
      · intro seg' hseg' ci' hci'
        rcases mem_append.1 hseg' with hseg' | hseg'
        · exact hchecks seg' hseg' ci' hci'
        · rw [mem_singleton.1 hseg'] at hci' ⊢
          rw [hci] at hci'
          cases hci'
          exact ⟨hcompression, hlength⟩

/-! ## The segments of the table -/

theorem mem_columnSegments :
    seg ∈ columnSegments storage projectedCols ↔
      ∃ (rg : Nat) (columnData : Nat → List StorageSegment),
        storage.rowGroups[rg]? = some (some columnData) ∧
        ∃ pc ∈ projectedCols, pc.isRowid = false ∧
          ∃ s ∈ columnData pc.storageIdx, seg = s.info rg pc.storageIdx := by
  simp only [columnSegments, mem_flatMap, Prod.exists, mem_zipIdx_iff_getElem?]
  constructor
  · rintro ⟨rowGroup, rg, hrg, hseg⟩
    cases rowGroup with
    | none => cases hseg
    | some columnData =>
      obtain ⟨pc, hpc, hseg⟩ := mem_flatMap.1 hseg
      obtain ⟨s, hs, rfl⟩ := mem_map.1 hseg
      obtain ⟨hpc, hrowid⟩ := mem_filter.1 hpc
      exact ⟨rg, columnData, hrg, pc, hpc, by simpa using hrowid, s, hs, rfl⟩
  · rintro ⟨rg, columnData, hrg, pc, hpc, hrowid, s, hs, rfl⟩
    refine ⟨some columnData, rg, hrg, mem_flatMap.2 ⟨pc, ?_, mem_map.2 ⟨s, hs, rfl⟩⟩⟩
    exact mem_filter.2 ⟨hpc, by simp [hrowid]⟩

variable {columnData : Nat → List StorageSegment} {pc : ProjectedColumn} {d : SegmentDescriptor}

theorem sublist_columnSegments (hrg : storage.rowGroups[rg]? = some (some columnData))
    (hpc : pc ∈ projectedCols) (hrowid : pc.isRowid = false) :
    ((columnData pc.storageIdx).map (·.info rg pc.storageIdx)).Sublist
      (columnSegments storage projectedCols) := by
  have hpc : pc ∈ projectedCols.filter (!·.isRowid) := mem_filter.2 ⟨hpc, by simp [hrowid]⟩
  have hrg : (some columnData, rg) ∈ storage.rowGroups.zipIdx :=
    mem_zipIdx_iff_getElem?.2 hrg
  have hcolumn := sublist_flatten_of_mem (mem_map_of_mem
    (f := fun pc => (columnData pc.storageIdx).map (·.info rg pc.storageIdx)) hpc)
  exact hcolumn.trans (sublist_flatten_of_mem (mem_map.2 ⟨_, hrg, rfl⟩))

theorem projectedLookup_isSome (hpc : pc ∈ projectedCols) (hrowid : pc.isRowid = false) :
    (projectedLookup projectedCols pc.storageIdx).isSome := by
  rw [projectedLookup, findIdx?_isSome, any_eq_true]
  exact ⟨pc, hpc, by simp [hrowid]⟩

theorem mem_descriptors {validitySeg : Bool} :
    d ∈ descriptors projectedCols projectedTypes (columnSegments storage projectedCols) rg ci
        validitySeg ↔
      ∃ seg ∈ columnSegments storage projectedCols, seg.rowGroupIndex = rg ∧
        projectedLookup projectedCols seg.columnId = some ci ∧
        isValidityPath seg.columnPath = validitySeg ∧
        d = buildSegmentDescriptor projectedTypes ci seg := by
  simp only [descriptors, mem_map, mem_filter, destined, Bool.and_eq_true, beq_iff_eq,
    and_assoc, eq_comm (a := d)]

theorem descriptor_end_le (hrg : storage.rowGroups[rg]? = some (some columnData))
    (hrows : ∀ c, TiledColumn rows (columnData c)) {validitySeg : Bool}
    (hd : d ∈ descriptors projectedCols projectedTypes (columnSegments storage projectedCols) rg ci
      validitySeg) :
    d.segmentStart + d.segmentCount ≤ rows := by
  obtain ⟨seg, hseg, rfl, -, -, rfl⟩ := mem_descriptors.1 hd
  obtain ⟨rg', columnData', hrg', pc, -, -, s, hs, rfl⟩ := mem_columnSegments.1 hseg
  obtain rfl : columnData' = columnData :=
    Option.some.inj (Option.some.inj (hrg'.symm.trans hrg))
  exact (hrows _).end_le hs

theorem rows_le_sum_descriptors (hrg : storage.rowGroups[rg]? = some (some columnData))
    (hrows : ∀ c, TiledColumn rows (columnData c)) (hpc : pc ∈ projectedCols)
    (hrowid : pc.isRowid = false) (hci : projectedLookup projectedCols pc.storageIdx = some ci) :
    rows ≤ ((descriptors projectedCols projectedTypes (columnSegments storage projectedCols) rg ci
      false).map (·.segmentCount)).sum := by
  have hsub := ((sublist_columnSegments hrg hpc hrowid).filter
    (destined projectedCols rg ci false)).map (·.segmentCount)
  rw [descriptors, map_map]
  refine Eq.trans_le ?_ (hsub.sum_le_sum fun _ _ => Nat.zero_le _)
  rw [← (hrows pc.storageIdx).data.sum_eq, filter_map, map_map]
  congr 2
  refine filter_congr fun s _ => ?_
  simp [destined, StorageSegment.info, hci]

/-! ## The finished row groups -/

def walkedRowGroup (storage : DataTable) (projectedCols : List ProjectedColumn)
    (projectedTypes : List LogicalType) (handles : List Nat) (rg : Nat) : RowGroupMetadata :=
  let filled := filledRowGroup projectedCols projectedTypes handles
    (columnSegments storage projectedCols) rg
  computeDecodedByteBudget projectedTypes <|
    computeRowCount storage { filled with columns := filled.columns.map (·.sortSegments) }

def walkedColumn (storage : DataTable) (projectedCols : List ProjectedColumn)
    (projectedTypes : List LogicalType) (rg ci : Nat) (pc : ProjectedColumn) : ColumnMetadata :=
  ColumnMetadata.sortSegments
    { columnId := if pc.isRowid then invalidColumnId else pc.storageIdx
      isRowid := pc.isRowid
      dataSegments := descriptors projectedCols projectedTypes (columnSegments storage projectedCols)
        rg ci false
      validitySegments := descriptors projectedCols projectedTypes
        (columnSegments storage projectedCols) rg ci true }

variable {handles : List Nat}

theorem walkedRowGroup_getElem? (rg ci : Nat) :
    (walkedRowGroup storage projectedCols projectedTypes handles rg).columns[ci]? =
      projectedCols[ci]?.map (walkedColumn storage projectedCols projectedTypes rg ci) := by
  simp only [walkedRowGroup, computeDecodedByteBudget, computeRowCount, filledRowGroup, emptyRowGroup,
    getElem?_map, getElem?_mapIdx, Option.map_map]
  rfl

theorem mem_walkedColumn_data :
    d ∈ (walkedColumn storage projectedCols projectedTypes rg ci pc).dataSegments ↔
      d ∈ descriptors projectedCols projectedTypes (columnSegments storage projectedCols) rg ci
        false :=
  mem_insertionSort _

theorem mem_walkedColumn_validity :
    d ∈ (walkedColumn storage projectedCols projectedTypes rg ci pc).validitySegments ↔
      d ∈ descriptors projectedCols projectedTypes (columnSegments storage projectedCols) rg ci
        true :=
  mem_insertionSort _

theorem sum_walkedColumn_data (rg ci : Nat) (pc : ProjectedColumn) :
    ((walkedColumn storage projectedCols projectedTypes rg ci pc).dataSegments.map
        (·.segmentCount)).sum =
      ((descriptors projectedCols projectedTypes (columnSegments storage projectedCols) rg ci
        false).map (·.segmentCount)).sum :=
  List.Perm.sum_nat ((perm_insertionSort _ _).map _)

theorem rowCount_computeRowCount (storage : DataTable) (rg : RowGroupMetadata) :
    (computeRowCount storage rg).rowCount =
      storage.partitionStats[rg.rowGroupIndex]?.elim ((((rg.columns.filter (!·.isRowid)).map fun col =>
        (col.dataSegments.map (·.segmentCount)).sum).find? (0 < ·)).getD 0) (·.count) := by
  unfold computeRowCount
  cases storage.partitionStats[rg.rowGroupIndex]? <;> rfl

/-- The row count is at least the number of rows of the row group: it is either taken from the
statistics or the sum of the segments of a column, which may have been added more than once. -/
theorem rows_le_rowCount (hrg : storage.rowGroups[rg]? = some (some columnData))
    (hstats : ∀ ps ∈ storage.partitionStats[rg]?, ps.count = rows)
    (hrows : ∀ c, TiledColumn rows (columnData c)) (hpc : pc ∈ projectedCols)
    (hrowid : pc.isRowid = false) :
    rows ≤ (walkedRowGroup storage projectedCols projectedTypes handles rg).rowCount := by
  set columns := (walkedRowGroup storage projectedCols projectedTypes handles rg).columns with hcolumns
  have hcount : (walkedRowGroup storage projectedCols projectedTypes handles rg).rowCount =
      storage.partitionStats[rg]?.elim ((((columns.filter (!·.isRowid)).map fun col =>
        (col.dataSegments.map (·.segmentCount)).sum).find? (0 < ·)).getD 0) (·.count) :=
    rowCount_computeRowCount storage _
  rw [hcount]
  cases hps : storage.partitionStats[rg]? with
  | some ps => exact (hstats ps hps).ge
  | none =>
    by_cases hzero : rows = 0
    · omega
    -- The column that the lookup finds has the data of all rows.
    obtain ⟨ci, hci⟩ := Option.isSome_iff_exists.1 (projectedLookup_isSome hpc hrowid)
    obtain ⟨pc', hpc', hpred⟩ : ∃ pc', projectedCols[ci]? = some pc' ∧ pc'.isRowid = false := by
      obtain ⟨hlt, hpred, -⟩ := findIdx?_eq_some_iff_getElem.1 hci
      exact ⟨_, getElem?_eq_getElem hlt, by simp at hpred; exact hpred.1⟩
    have hmem : walkedColumn storage projectedCols projectedTypes rg ci pc' ∈
        columns.filter (!·.isRowid) := by
      refine mem_filter.2 ⟨mem_of_getElem? (i := ci) ?_, by
        simp [walkedColumn, ColumnMetadata.sortSegments, hpred]⟩
      rw [hcolumns, walkedRowGroup_getElem?, hpc']
      rfl
    have hle : rows ≤ ((descriptors projectedCols projectedTypes
        (columnSegments storage projectedCols) rg ci false).map (·.segmentCount)).sum :=
      rows_le_sum_descriptors hrg hrows hpc hrowid hci
    cases hfind : ((columns.filter (!·.isRowid)).map fun col =>
        (col.dataSegments.map (·.segmentCount)).sum).find? (0 < ·) with
    | none =>
      have hnone := find?_eq_none.1 hfind _ (mem_map_of_mem hmem)
      rw [sum_walkedColumn_data] at hnone
      simp only [decide_eq_true_eq] at hnone
      omega
    | some k =>
      -- So has any column with a segment.
      have hk : 0 < k := by simpa using find?_some hfind
      obtain ⟨col, hcol, rfl⟩ := mem_map.1 (mem_of_find?_eq_some hfind)
      obtain ⟨ci', hci'⟩ := getElem?_of_mem (mem_filter.1 hcol).1
      rw [hcolumns, walkedRowGroup_getElem?, Option.map_eq_some_iff] at hci'
      obtain ⟨pc'', -, rfl⟩ := hci'
      rw [sum_walkedColumn_data] at hk ⊢
      obtain ⟨d, hd⟩ := exists_mem_of_ne_nil
        (descriptors projectedCols projectedTypes (columnSegments storage projectedCols) rg ci' false)
        (by rintro hnil; rw [hnil] at hk; exact absurd hk (by simp))
      obtain ⟨seg, hseg, -, hlookup, -, -⟩ := mem_descriptors.1 hd
      obtain ⟨rg', columnData', -, pc₀, hpc₀, hrowid₀, s, -, rfl⟩ := mem_columnSegments.1 hseg
      exact rows_le_sum_descriptors hrg hrows hpc₀ hrowid₀ hlookup

/-! ## Viable tables -/

/-- What the decode can rely on in a row group: the columns are those of the scan, the segments lie
within the rows, every validity segment can be staged, and the strings of the row group stay below the
limit of cuDF. -/
structure RowGroupMetadata.Accepted (projectedCols : List ProjectedColumn)
    (projectedTypes : List LogicalType) (rg : RowGroupMetadata) : Prop where
  column : ∀ c ∈ scanColumns projectedCols projectedTypes, ∃ col, rg.columns[c.index]? = some col ∧
    (∀ seg ∈ col.dataSegments, seg.segmentStart + seg.segmentCount ≤ rg.rowCount) ∧
    (∀ seg ∈ col.validitySegments, seg.segmentStart + seg.segmentCount ≤ rg.rowCount) ∧
    (∀ seg ∈ col.validitySegments, isSupportedValidityCompression seg.compression = true) ∧
    (isVarchar c.type = true → rg.varcharBytesPerCol[c.index]? = some col.charsUpperBound)
  length_bytes : rg.varcharBytesPerCol.length = projectedTypes.length
  bytes_lt : ∀ b ∈ rg.varcharBytesPerCol, b < cudfInt32StringsThreshold

theorem mem_scanColumns {c : ScanColumn} :
    c ∈ scanColumns projectedCols projectedTypes ↔
      ∃ pc, projectedCols[c.index]? = some pc ∧ projectedTypes[c.index]? = some c.type ∧
        pc.isRowid = false := by
  simp only [scanColumns, mem_map, mem_filter, Prod.exists, mem_zipIdx_iff_getElem?,
    getElem?_zip_eq_some]
  constructor
  · rintro ⟨pc, type, ci, ⟨⟨hpc, htype⟩, hrowid⟩, rfl⟩
    exact ⟨pc, hpc, htype, by simpa using hrowid⟩
  · rintro ⟨pc, hpc, htype, hrowid⟩
    exact ⟨pc, c.type, c.index, ⟨⟨hpc, htype⟩, by simpa using hrowid⟩, rfl⟩

theorem varcharBytes_eq_ok {rowGroupIndex : Nat} {col : ColumnMetadata} {type : LogicalType}
    {b : Nat} (h : varcharBytes rowGroupIndex (col, type) = .ok b) :
    b < cudfInt32StringsThreshold ∧
      (col.isRowid = false → isVarchar type = true → b = col.charsUpperBound) := by
  simp only [varcharBytes] at h
  split at h
  next hskip =>
    cases h
    refine ⟨by decide, fun hrowid hvarchar => ?_⟩
    simp [hrowid, hvarchar] at hskip
  next =>
    split at h
    · cases h
    next hlt =>
      cases h
      exact ⟨by omega, fun _ _ => rfl⟩

theorem walk_eq_ok
    (h : walkDuckdbNativeMetadata storage projectedCols projectedTypes = .ok rowGroups) :
    projectedCols.length = projectedTypes.length ∧
    checkTypes projectedCols projectedTypes = .ok () ∧
    (∀ seg ∈ columnSegments storage projectedCols,
      ∀ ci ∈ projectedLookup projectedCols seg.columnId, checkCompression seg = .ok ()) ∧
    ∃ handles, ∀ rg ∈ rowGroups, ∃ i, setVarcharBytes projectedTypes
      (walkedRowGroup storage projectedCols projectedTypes handles i) = .ok rg := by
  unfold walkDuckdbNativeMetadata at h
  rw [seq_eq_ok_iff, seq_eq_ok_iff, seq_eq_ok_iff, bind_eq_ok_iff] at h
  obtain ⟨-, hlength, htypes, handles, -, h⟩ := h
  rw [bind_eq_ok_iff] at h
  obtain ⟨filled, hfold, h⟩ := h
  rw [bind_eq_ok_iff] at h
  obtain ⟨walked, hmapM, h⟩ := h
  rw [seq_eq_ok_iff] at h
  obtain ⟨-, ⟨⟩⟩ := h
  obtain ⟨rfl, hchecks⟩ := foldlM_addSegment hfold
  refine ⟨by simpa using hlength, htypes, fun seg hseg ci hci => (hchecks seg hseg ci hci).1,
    handles, fun rg hrg => ?_⟩
  obtain ⟨rg', hrg', hbytes⟩ := exists_of_mem_forall₂ (mapM_eq_ok_iff.1 hmapM) hrg
  obtain ⟨rg'', hrg'', rfl⟩ := mem_map.1 ((List.rdropWhile_prefix _ _).subset hrg')
  obtain ⟨i, -, rfl⟩ := mem_map.1 hrg''
  exact ⟨i, hbytes⟩

/-- **The row groups of a viable table are accepted.** -/
theorem accepted_of_walk
    (h : walkDuckdbNativeMetadata storage projectedCols projectedTypes = .ok rowGroups)
    (htiled : storage.Tiled) {rg : RowGroupMetadata} (hrg : rg ∈ rowGroups) :
    rg.Accepted projectedCols projectedTypes := by
  obtain ⟨hlength, -, hchecks, handles, hmem⟩ := walk_eq_ok h
  obtain ⟨i, hset⟩ := hmem rg hrg
  rw [setVarcharBytes, bind_eq_ok_iff] at hset
  obtain ⟨bytes, hbytes, ⟨⟩⟩ := hset
  have hforall := mapM_eq_ok_iff.1 hbytes
  refine ⟨fun c hc => ?_, ?_, fun b hb => ?_⟩
  · obtain ⟨pc, hpc, htype, hrowid⟩ := mem_scanColumns.1 hc
    have hcol : (walkedRowGroup storage projectedCols projectedTypes handles i).columns[c.index]? =
        some (walkedColumn storage projectedCols projectedTypes i c.index pc) := by
      rw [walkedRowGroup_getElem?, hpc]
      rfl
    -- A segment of the row group shows that the row group exists, with rows that it tiles.
    have hle : ∀ validitySeg, ∀ d ∈ descriptors projectedCols projectedTypes
        (columnSegments storage projectedCols) i c.index validitySeg,
        d.segmentStart + d.segmentCount ≤
          (walkedRowGroup storage projectedCols projectedTypes handles i).rowCount := by
      intro validitySeg d hd
      obtain ⟨seg, hseg, hi, -⟩ := mem_descriptors.1 hd
      obtain ⟨i', columnData, hi', pc', -, -, s, -, rfl⟩ := mem_columnSegments.1 hseg
      obtain rfl : i' = i := hi
      obtain ⟨rows, hstats, hrows⟩ := htiled i' columnData hi'
      exact (descriptor_end_le hi' hrows hd).trans
        (rows_le_rowCount hi' hstats hrows (mem_of_getElem? hpc) hrowid)
    refine ⟨_, hcol, fun seg hseg => hle _ _ (mem_walkedColumn_data.1 hseg),
      fun seg hseg => hle _ _ (mem_walkedColumn_validity.1 hseg), fun seg hseg => ?_,
      fun hvarchar => ?_⟩
    · obtain ⟨info, hinfo, -, hlookup, hpath, rfl⟩ :=
        mem_descriptors.1 (mem_walkedColumn_validity.1 hseg)
      have hok := hchecks info hinfo _ hlookup
      simpa [checkCompression, buildSegmentDescriptor, hpath] using hok
    · have hzip : ((walkedRowGroup storage projectedCols projectedTypes handles i).columns.zip
          projectedTypes)[c.index]? =
          some (walkedColumn storage projectedCols projectedTypes i c.index pc, c.type) :=
        getElem?_zip_eq_some.2 ⟨hcol, htype⟩
      obtain ⟨b, hb, hcolBytes⟩ := forall₂_getElem? hforall.flip hzip
      rw [hb, ((varcharBytes_eq_ok hcolBytes).2 hrowid hvarchar)]
  · rw [← hforall.length_eq, length_zip]
    have : (walkedRowGroup storage projectedCols projectedTypes handles i).columns.length =
        projectedCols.length := by
      simp [walkedRowGroup, computeDecodedByteBudget, computeRowCount, filledRowGroup, emptyRowGroup]
    omega
  · obtain ⟨⟨col, type⟩, -, hcolBytes⟩ := exists_of_mem_forall₂ hforall hb
    exact (varcharBytes_eq_ok hcolBytes).1

end Walk

end Sirius.Native
