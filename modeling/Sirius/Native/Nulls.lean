import Sirius.Native.NullMask
import Sirius.Native.Viability

/-!
# Which NULLs survive a native scan

The bitmaps of a column come from segments that do not overlap and start at a byte, so that every row
gets its bit from at most one of them (`overlayAll_eq_false_iff`). Bits behind the last row of a bitmap
reach rows of the next segment. CONSTANT and EMPTY validity is not staged at all: its NULLs survive only
where a DICT_FSST segment has index 0 and some DICT_FSST segment of the column has a dictionary with
more than the entry for NULL (`nulls_survive_iff`).

The NULLs of the table are read off its own segments. That the decoder sees the same ones follows from the
walk over the metadata, since the segments of a column do not overlap.
-/

namespace Sirius.Native

open Expression (LogicalType)
open Lib List

/-! ## Places of rows -/

variable {before before' : List RowGroupMetadata} {rg rg' : RowGroupMetadata} {k : Nat}

theorem place_trichotomy {after after' : List RowGroupMetadata}
    (h : before ++ rg :: after = before' ++ rg' :: after') :
    (before = before' ∧ rg = rg') ∨ totalRows before + rg.rowCount ≤ totalRows before' ∨
      totalRows before' + rg'.rowCount ≤ totalRows before := by
  induction before generalizing before' with
  | nil =>
    cases before' with
    | nil =>
      cases h
      exact .inl ⟨rfl, rfl⟩
    | cons first before' =>
      cases h
      refine .inr (.inl ?_)
      simp [totalRows]
  | cons first before ih =>
    cases before' with
    | nil =>
      cases h
      refine .inr (.inr ?_)
      simp [totalRows]
    | cons first' before' =>
      obtain ⟨rfl, htail⟩ := cons.inj h
      have hsum : ∀ l, totalRows (first :: l) = first.rowCount + totalRows l := fun l => by
        simp [totalRows]
      rw [hsum, hsum]
      rcases ih htail with ⟨rfl, rfl⟩ | hle | hle
      · exact .inl ⟨rfl, rfl⟩
      · exact .inr (.inl (by omega))
      · exact .inr (.inr (by omega))

/-! ## Segments that tile a row group -/

theorem Consecutive.first_le {first last : Nat} {segs : List StorageSegment}
    (h : Consecutive first last segs) {seg : StorageSegment} (hseg : seg ∈ segs) :
    first ≤ seg.segmentStart := by
  induction segs generalizing first with
  | nil => cases hseg
  | cons seg' segs ih =>
    rcases mem_cons.1 hseg with rfl | hseg
    · exact h.1.ge
    · have := ih h.2 hseg
      omega

theorem Consecutive.eq_of_mem {first last : Nat} {segs : List StorageSegment}
    (h : Consecutive first last segs) {seg seg' : StorageSegment} (hseg : seg ∈ segs)
    (hseg' : seg' ∈ segs) (hk : seg.segmentStart ≤ k ∧ k < seg.segmentStart + seg.segmentCount)
    (hk' : seg'.segmentStart ≤ k ∧ k < seg'.segmentStart + seg'.segmentCount) : seg = seg' := by
  induction segs generalizing first with
  | nil => cases hseg
  | cons head segs ih =>
    have hhead := h.1
    rcases mem_cons.1 hseg with rfl | hmem <;> rcases mem_cons.1 hseg' with rfl | hmem'
    · rfl
    · have := h.2.first_le hmem'
      omega
    · have := h.2.first_le hmem
      omega
    · exact ih h.2 hmem hmem'

theorem projectedLookup_eq_some {projectedCols : List ProjectedColumn} {columnId ci : Nat}
    (h : projectedLookup projectedCols columnId = some ci) :
    ∃ pc, projectedCols[ci]? = some pc ∧ pc.storageIdx = columnId := by
  obtain ⟨hlt, hpc, -⟩ := findIdx?_eq_some_iff_getElem.1 h
  refine ⟨projectedCols[ci], getElem?_eq_getElem hlt, ?_⟩
  simpa using (Bool.and_eq_true_iff.1 hpc).2

/-- Of the validity segments of a column, only one has the row. -/
theorem DataTable.Tiled.validity_eq {storage : DataTable} (htiled : storage.Tiled) {g column : Nat}
    {columnData : Nat → List StorageSegment} (hg : storage.rowGroups[g]? = some (some columnData))
    {s s' : StorageSegment} (hs : s ∈ columnData column) (hs' : s' ∈ columnData column)
    (hpath : isValidityPath s.columnPath = true) (hpath' : isValidityPath s'.columnPath = true)
    (hk : s.Covers k) (hk' : s'.Covers k) : s = s' := by
  obtain ⟨rows, -, hcolumns⟩ := htiled g columnData hg
  have hmem : s ∈ (columnData column).filter (isValidityPath ·.columnPath) := mem_filter.2 ⟨hs, hpath⟩
  have hmem' : s' ∈ (columnData column).filter (isValidityPath ·.columnPath) := mem_filter.2 ⟨hs', hpath'⟩
  rcases (hcolumns column).validity with hnil | ⟨sorted, hperm, hcons⟩
  · rw [hnil] at hmem
    cases hmem
  · exact hcons.eq_of_mem (hperm.mem_iff.2 hmem) (hperm.mem_iff.2 hmem') hk hk'

section Walk

variable {storage : DataTable} {projectedCols : List ProjectedColumn}
  {projectedTypes : List LogicalType} {rowGroups : List RowGroupMetadata} {ci : Nat}

theorem columns_of_walk
    (hviable : walkDuckdbNativeMetadata storage projectedCols projectedTypes = .ok rowGroups)
    (hrg : rg ∈ rowGroups) :
    rg.columns[ci]? =
      projectedCols[ci]?.map (walkedColumn storage projectedCols projectedTypes rg.rowGroupIndex ci) := by
  obtain ⟨-, -, -, handles, hmem⟩ := walk_eq_ok hviable
  obtain ⟨i, hset⟩ := hmem rg hrg
  rw [setVarcharBytes, bind_eq_ok_iff] at hset
  obtain ⟨bytes, -, ⟨⟩⟩ := hset
  exact walkedRowGroup_getElem? i ci

/-- **A segment of the metadata** is one of the table. -/
theorem mem_of_mem_descriptors {g : Nat} {validitySeg : Bool} {d : SegmentDescriptor}
    (hd : d ∈ descriptors projectedCols projectedTypes (columnSegments storage projectedCols) g ci validitySeg)
    {pc : ProjectedColumn} (hpc : projectedCols[ci]? = some pc) :
    ∃ columnData, storage.rowGroups[g]? = some (some columnData) ∧
      ∃ s ∈ columnData pc.storageIdx, isValidityPath s.columnPath = validitySeg ∧
        d = buildSegmentDescriptor projectedTypes ci (s.info g pc.storageIdx) := by
  obtain ⟨seg, hseg, hindex, hlookup, hpath, rfl⟩ := mem_descriptors.1 hd
  obtain ⟨g', columnData, hg, pc', -, -, s, hs, rfl⟩ := mem_columnSegments.1 hseg
  obtain rfl : g' = g := hindex
  obtain ⟨p, hp, hstorage⟩ := projectedLookup_eq_some hlookup
  obtain rfl := Option.mem_unique hpc hp
  have hidx : pc'.storageIdx = pc.storageIdx := hstorage.symm
  rw [hidx] at hs ⊢
  exact ⟨columnData, hg, s, hs, hpath, rfl⟩

theorem mem_validity_of_walk
    (hviable : walkDuckdbNativeMetadata storage projectedCols projectedTypes = .ok rowGroups)
    (hrg : rg ∈ rowGroups) {col : ColumnMetadata} (hcol : rg.columns[ci]? = some col)
    {pc : ProjectedColumn} (hpc : projectedCols[ci]? = some pc) {v : SegmentDescriptor}
    (hv : v ∈ col.validitySegments) :
    ∃ columnData, storage.rowGroups[rg.rowGroupIndex]? = some (some columnData) ∧
      ∃ s ∈ columnData pc.storageIdx, isValidityPath s.columnPath = true ∧
        v = buildSegmentDescriptor projectedTypes ci (s.info rg.rowGroupIndex pc.storageIdx) := by
  rw [columns_of_walk hviable hrg, hpc, Option.map_some] at hcol
  cases hcol
  exact mem_of_mem_descriptors (mem_walkedColumn_validity.1 hv) hpc

end Walk

namespace Contents

/-! ## Overlays -/

variable {r : Nat} {contents : Contents} {ci : Nat} {split : List RowGroupMetadata}

/-- A row in no bitmap keeps its bit. A row in bitmaps that are all the same gets its bit from them. -/
theorem foldl_overlay (ps : List Patch) (mask : Nat → Bool) :
    ((∀ p ∈ ps, ¬ p.InBytes r) → ps.foldl Patch.overlay mask r = mask r) ∧
    ∀ p ∈ ps, p.InBytes r → (∀ p' ∈ ps, p'.InBytes r → p' = p) →
      ps.foldl Patch.overlay mask r = p.bit (r - p.rowOffset / 8 * 8) := by
  induction ps generalizing mask with
  | nil => simp
  | cons q ps ih =>
    obtain ⟨hnone, hsome⟩ := ih (q.overlay mask)
    rw [foldl_cons]
    constructor
    · intro h
      rw [hnone fun p hp => h p (.tail _ hp), Patch.overlay, if_neg (h q (.head _))]
    · intro p hp hr huniq
      by_cases hlater : ∃ p' ∈ ps, p'.InBytes r
      · obtain ⟨p', hp', hr'⟩ := hlater
        obtain rfl := huniq p' (.tail _ hp') hr'
        exact hsome p' hp' hr' fun p'' hp'' => huniq p'' (.tail _ hp'')
      · obtain rfl : p = q := by
          rcases mem_cons.1 hp with rfl | hp
          · rfl
          · exact absurd ⟨p, hp, hr⟩ hlater
        rw [hnone fun p' hp' hr' => hlater ⟨p', hp', hr'⟩, Patch.overlay, if_pos hr]

/-! ## The column -/

/-- What is known of a column in the row groups of a split: its segments lie within the rows, each row
has one validity segment, the bitmaps start at a byte, and rows can be counted. -/
structure Laid (ci : Nat) (split : List RowGroupMetadata) : Prop where
  stageable : Stageable ci split
  rows : totalRows split < 2 ^ 32
  data_le : ∀ rg ∈ split, ∀ col ∈ rg.columns[ci]?, ∀ seg ∈ col.dataSegments,
    seg.segmentStart + seg.segmentCount ≤ rg.rowCount
  validity_le : ∀ rg ∈ split, ∀ col ∈ rg.columns[ci]?, ∀ v ∈ col.validitySegments,
    v.segmentStart + v.segmentCount ≤ rg.rowCount
  once : ∀ rg ∈ split, ∀ col ∈ rg.columns[ci]?, ∀ v ∈ col.validitySegments,
    ∀ v' ∈ col.validitySegments, ∀ k, v.Covers k → v'.Covers k → v = v'
  aligned : ∀ before rg after, split = before ++ rg :: after → ∀ col ∈ rg.columns[ci]?,
    ∀ v ∈ col.validitySegments, isValidityBitmap v.compression = true → v.segmentCount ≠ 0 →
      (totalRows before + v.segmentStart) % 8 = 0

/-- A bitmap of the column, in the row group behind `before`. -/
structure BitmapAt (ci : Nat) (split before : List RowGroupMetadata) (rg : RowGroupMetadata)
    (v : SegmentDescriptor) : Prop where
  place : ∃ after, split = before ++ rg :: after
  column : ∃ col, rg.columns[ci]? = some col ∧ v ∈ col.validitySegments
  bitmap : isValidityBitmap v.compression = true

theorem mem_patches (hlaid : Laid ci split) {p : Patch} :
    p ∈ contents.patches ci split ↔ ∃ before rg v, BitmapAt ci split before rg v ∧
      p = contents.stagePatch ci (totalRows before) rg v := by
  have hrows : 0 + totalRows split < 2 ^ 32 := by have := hlaid.rows; omega
  simp only [patches, mem_flatMap, Prod.exists, mem_withCursor hrows, Option.mem_toList,
    mem_map, Nat.zero_add, ColumnMetadata.stagedValidity, mem_filter]
  have hkeep {before rg after col} {v : SegmentDescriptor} (hsplit : split = before ++ rg :: after)
      (hcol : rg.columns[ci]? = some col) (hv : v ∈ col.validitySegments) :
      isValidityBitmap v.compression = !isConstantOrEmptyValidity v.compression := by
    obtain ⟨col', hcol', hsupported⟩ := hlaid.stageable rg (by simp [hsplit])
    obtain rfl := Option.mem_unique hcol hcol'
    exact isValidityBitmap_eq_not (hsupported v hv)
  constructor
  · rintro ⟨_, rg, ⟨before, after, hsplit, rfl⟩, col, hcol, v, ⟨hv, h⟩, rfl⟩
    exact ⟨before, rg, v, ⟨⟨after, hsplit⟩, ⟨col, hcol, hv⟩, (hkeep hsplit hcol hv).trans h⟩, rfl⟩
  · rintro ⟨before, rg, v, ⟨⟨after, hsplit⟩, ⟨col, hcol, hv⟩, hbitmap⟩, rfl⟩
    exact ⟨_, rg, ⟨before, after, hsplit, rfl⟩, col, hcol, v,
      ⟨hv, (hkeep hsplit hcol hv).symm.trans hbitmap⟩, rfl⟩

variable {v v' : SegmentDescriptor}

theorem BitmapAt.stagePatch_eq (hlaid : Laid ci split) (h : BitmapAt ci split before rg v) :
    contents.stagePatch ci (totalRows before) rg v =
      ⟨totalRows before + v.segmentStart, v.segmentCount,
        contents.validityBit ci rg v⟩ := by
  obtain ⟨⟨after, hsplit⟩, ⟨col, hcol, hv⟩, -⟩ := h
  obtain ⟨hoffset, hcount, -⟩ := rowOffset_stageData hsplit hlaid.rows
    (hlaid.validity_le rg (by simp [hsplit]) col hcol v hv)
  simp only [stagePatch, stageValidity, hoffset, hcount]

/-- The rows of a bitmap that starts at a byte, and the bits behind them. -/
theorem inBytes_iff {offset count : Nat} {bit : Nat → Bool} (haligned : count ≠ 0 → offset % 8 = 0) :
    (⟨offset, count, bit⟩ : Patch).InBytes r ↔
      offset ≤ r ∧ r < offset + (count + 7) / 8 * 8 := by
  unfold Patch.InBytes
  by_cases hcount : count = 0
  · subst hcount
    simp
    omega
  · have := haligned hcount
    simp only
    omega

theorem BitmapAt.unique (hlaid : Laid ci split) (h : BitmapAt ci split before rg v)
    (h' : BitmapAt ci split before' rg' v')
    (hr : totalRows before + v.segmentStart ≤ r ∧ r < totalRows before + v.segmentStart +
      (v.segmentCount + 7) / 8 * 8)
    (hr' : totalRows before' + v'.segmentStart ≤ r ∧ r < totalRows before' + v'.segmentStart +
      (v'.segmentCount + 7) / 8 * 8) :
    before = before' ∧ rg = rg' ∧ v = v' := by
  obtain ⟨⟨after, hsplit⟩, ⟨col, hcol, hv⟩, hbitmap⟩ := h
  obtain ⟨⟨after', hsplit'⟩, ⟨col', hcol', hv'⟩, hbitmap'⟩ := h'
  have hmem : rg ∈ split := by simp [hsplit]
  have hmem' : rg' ∈ split := by simp [hsplit']
  have hle := hlaid.validity_le rg hmem col hcol v hv
  have hle' := hlaid.validity_le rg' hmem' col' hcol' v' hv'
  have haligned := hlaid.aligned before rg after hsplit col hcol v hv hbitmap (by omega)
  have haligned' := hlaid.aligned before' rg' after' hsplit' col' hcol' v' hv' hbitmap' (by omega)
  rcases place_trichotomy (hsplit.symm.trans hsplit') with ⟨rfl, rfl⟩ | hlt | hlt
  · obtain rfl := Option.mem_unique hcol hcol'
    refine ⟨rfl, rfl, ?_⟩
    -- Of two bitmaps in one byte, the later one starts within the earlier one.
    by_cases hfirst : v.segmentStart ≤ v'.segmentStart
    · refine hlaid.once rg hmem col hcol v hv v' hv' v'.segmentStart ⟨hfirst, ?_⟩ ⟨le_rfl, ?_⟩ <;>
        omega
    · refine hlaid.once rg hmem col hcol v hv v' hv' v.segmentStart ⟨le_rfl, ?_⟩ ⟨?_, ?_⟩ <;> omega
  · omega
  · omega

/-- **The bit of a row** is cleared exactly if the bitmap that has its byte says so. -/
theorem overlayAll_eq_false_iff (hlaid : Laid ci split) (r : Nat) :
    contents.overlayAll ci split r = false ↔ ∃ before rg v, BitmapAt ci split before rg v ∧
      (totalRows before + v.segmentStart ≤ r ∧
        r < totalRows before + v.segmentStart + (v.segmentCount + 7) / 8 * 8) ∧
      contents.validityBit ci rg v (r - (totalRows before + v.segmentStart)) =
        false := by
  have hbytes : ∀ {before rg v}, BitmapAt ci split before rg v →
      ((contents.stagePatch ci (totalRows before) rg v).InBytes r ↔
        totalRows before + v.segmentStart ≤ r ∧
          r < totalRows before + v.segmentStart + (v.segmentCount + 7) / 8 * 8) := by
    intro before rg v h
    rw [h.stagePatch_eq hlaid]
    obtain ⟨⟨after, hsplit⟩, ⟨col, hcol, hv⟩, hbitmap⟩ := h
    exact inBytes_iff (hlaid.aligned before rg after hsplit col hcol v hv hbitmap)
  obtain ⟨hnone, hsome⟩ := foldl_overlay (contents.patches ci split) (r := r) fun _ => true
  unfold overlayAll
  by_cases hin : ∃ before rg v, BitmapAt ci split before rg v ∧
      (totalRows before + v.segmentStart ≤ r ∧
        r < totalRows before + v.segmentStart + (v.segmentCount + 7) / 8 * 8)
  · obtain ⟨before, rg, v, h, hr⟩ := hin
    have hvalue := hsome _ ((mem_patches hlaid).2 ⟨before, rg, v, h, rfl⟩) ((hbytes h).2 hr) (by
      intro p hp hp'
      obtain ⟨before', rg', v', h', rfl⟩ := (mem_patches hlaid).1 hp
      obtain ⟨rfl, rfl, rfl⟩ := h.unique hlaid h' hr ((hbytes h').1 hp')
      rfl)
    have hoffset : (totalRows before + v.segmentStart) / 8 * 8 = totalRows before + v.segmentStart := by
      obtain ⟨⟨after, hsplit⟩, ⟨col, hcol, hv⟩, hbitmap⟩ := h
      have := hlaid.aligned before rg after hsplit col hcol v hv hbitmap (by omega)
      omega
    rw [hvalue, h.stagePatch_eq hlaid]
    simp only [hoffset]
    constructor
    · exact fun hbit => ⟨before, rg, v, h, hr, hbit⟩
    · rintro ⟨before', rg', v', h', hr', hbit⟩
      obtain ⟨rfl, rfl, rfl⟩ := h.unique hlaid h' hr hr'
      exact hbit
  · rw [hnone]
    · refine iff_of_false (by simp) ?_
      rintro ⟨before, rg, v, h, hr, -⟩
      exact hin ⟨before, rg, v, h, hr⟩
    · intro p hp hr
      obtain ⟨before, rg, v, h, rfl⟩ := (mem_patches hlaid).1 hp
      exact hin ⟨before, rg, v, h, (hbytes h).1 hr⟩

/-! ## NULLs of a row -/

structure RowAt (split before : List RowGroupMetadata) (rg : RowGroupMetadata) (k : Nat) : Prop where
  place : ∃ after, split = before ++ rg :: after
  lt : k < rg.rowCount

def InBitmap (ci : Nat) (rg : RowGroupMetadata) (k : Nat) : Prop :=
  ∃ col, rg.columns[ci]? = some col ∧ ∃ v ∈ col.validitySegments,
    v.Covers k ∧ isValidityBitmap v.compression = true

variable (contents) (ci) in
/-- The bit of the row is cleared in the bitmap that the row is in. -/
def Cleared (rg : RowGroupMetadata) (k : Nat) : Prop :=
  ∃ col, rg.columns[ci]? = some col ∧ ∃ v ∈ col.validitySegments, v.Covers k ∧
    isValidityBitmap v.compression = true ∧ contents.validityBit ci rg v (k - v.segmentStart) = false

variable (contents) (ci split) in
/-- A bit behind the last row of a bitmap is cleared and reaches row `r` of the split. -/
def Padded (r : Nat) : Prop :=
  ∃ before rg v, BitmapAt ci split before rg v ∧
    (totalRows before + v.segmentStart + v.segmentCount ≤ r ∧
      r < totalRows before + v.segmentStart + (v.segmentCount + 7) / 8 * 8) ∧
    contents.validityBit ci rg v (r - (totalRows before + v.segmentStart)) = false

structure DictAt (ci : Nat) (rg : RowGroupMetadata) (d : SegmentDescriptor) : Prop where
  column : ∃ col, rg.columns[ci]? = some col ∧ d ∈ col.dataSegments
  dictFsst : d.compression = .dictFsst

variable (contents) (split) in
/-- The row is marked: it has index 0 in a DICT_FSST segment, and some DICT_FSST segment of the column
has a dictionary with an entry besides that for NULL. -/
def Marked (c : ScanColumn) (rg : RowGroupMetadata) (k : Nat) : Prop :=
  isVarchar c.type = true ∧
  (∃ rg' ∈ split, ∃ d, DictAt c.index rg' d ∧ d.segmentCount ≠ 0 ∧
    (contents.dictBytes c.index rg' d).inlineNull = true) ∧
  ∃ d, DictAt c.index rg d ∧ d.Covers k ∧
    (contents.dictBytes c.index rg d).marks (k - d.segmentStart) = true

theorem RowAt.eq_of_place {k' : Nat} (h : RowAt split before rg k) (h' : RowAt split before' rg' k')
    (heq : totalRows before + k = totalRows before' + k') :
    before = before' ∧ rg = rg' ∧ k = k' := by
  obtain ⟨⟨after, hsplit⟩, hlt⟩ := h
  obtain ⟨⟨after', hsplit'⟩, hlt'⟩ := h'
  rcases place_trichotomy (hsplit.symm.trans hsplit') with ⟨rfl, rfl⟩ | hle | hle
  · exact ⟨rfl, rfl, by omega⟩
  · omega
  · omega

theorem RowAt.lt_totalRows (h : RowAt split before rg k) :
    totalRows before + k < totalRows split := by
  obtain ⟨⟨after, rfl⟩, hlt⟩ := h
  rw [totalRows_split]
  omega

variable (contents) in
/-- The mask before dictionaries are looked at, in terms of the row. -/
theorem overlayAll_rowAt_iff (hlaid : Laid ci split) (hrow : RowAt split before rg k) :
    contents.overlayAll ci split (totalRows before + k) = false ↔
      contents.Cleared ci rg k ∨ contents.Padded ci split (totalRows before + k) := by
  rw [overlayAll_eq_false_iff hlaid]
  constructor
  · rintro ⟨before', rg', v, h, hr, hbit⟩
    by_cases hend : totalRows before' + v.segmentStart + v.segmentCount ≤ totalRows before + k
    · exact .inr ⟨before', rg', v, h, ⟨hend, hr.2⟩, hbit⟩
    · obtain ⟨hplace, ⟨col, hcol, hv⟩, hbitmap⟩ := h
      obtain ⟨after', hsplit'⟩ := hplace
      have hle := hlaid.validity_le rg' (by simp [hsplit']) col hcol v hv
      have hrow' : RowAt split before' rg' (totalRows before + k - totalRows before') :=
        ⟨⟨after', hsplit'⟩, by omega⟩
      obtain ⟨rfl, rfl, hk⟩ := hrow.eq_of_place hrow' (by omega)
      refine .inl ⟨col, hcol, v, hv, ⟨by omega, by omega⟩, hbitmap, ?_⟩
      rwa [Nat.add_sub_add_left] at hbit
  · rintro (⟨col, hcol, v, hv, hcovers, hbitmap, hbit⟩ | ⟨before', rg', v, h, hr, hbit⟩)
    · obtain ⟨hstart, hend⟩ := hcovers
      refine ⟨before, rg, v, ⟨hrow.place, ⟨col, hcol, hv⟩, hbitmap⟩, ⟨by omega, by omega⟩, ?_⟩
      rwa [Nat.add_sub_add_left]
    · exact ⟨before', rg', v, h, ⟨by omega, hr.2⟩, hbit⟩

theorem mem_dictSegments (hlaid : Laid ci split) {s : DictSegment} :
    s ∈ contents.dictSegments ci split ↔ ∃ before rg d, (∃ after, split = before ++ rg :: after) ∧
      DictAt ci rg d ∧ d.segmentCount ≠ 0 ∧
        s = ⟨totalRows before + d.segmentStart, d.segmentCount,
          contents.dictBytes ci rg d⟩ := by
  have hrows : 0 + totalRows split < 2 ^ 32 := by have := hlaid.rows; omega
  have hstage : ∀ {before after rg col d}, split = before ++ rg :: after →
      rg.columns[ci]? = some col → d ∈ col.dataSegments →
      (stageData (totalRows before) d).rowOffset = totalRows before + d.segmentStart ∧
        (stageData (totalRows before) d).rowCount = d.segmentCount := by
    intro before after rg col d hsplit hcol hd
    obtain ⟨hoffset, hcount, -⟩ := rowOffset_stageData hsplit hlaid.rows
      (hlaid.data_le rg (by simp [hsplit]) col hcol d hd)
    exact ⟨hoffset, hcount⟩
  simp only [dictSegments, mem_flatMap, Prod.exists, mem_withCursor hrows, Option.mem_toList,
    mem_map, Nat.zero_add, mem_filter, Bool.and_eq_true, beq_iff_eq, bne_iff_ne]
  constructor
  · rintro ⟨_, rg, ⟨before, after, hsplit, rfl⟩, col, hcol, d, ⟨hd, hdict, hcount⟩, rfl⟩
    obtain ⟨hoffset, hrowCount⟩ := hstage hsplit hcol hd
    refine ⟨before, rg, d, ⟨after, hsplit⟩, ⟨⟨col, hcol, hd⟩, hdict⟩, ?_, ?_⟩
    · rintro hzero
      simp [u32, hzero] at hcount
    · rw [hoffset, hrowCount]
  · rintro ⟨before, rg, d, ⟨after, hsplit⟩, ⟨⟨col, hcol, hd⟩, hdict⟩, hcount, rfl⟩
    obtain ⟨hoffset, hrowCount⟩ := hstage hsplit hcol hd
    refine ⟨_, rg, ⟨before, after, hsplit, rfl⟩, col, hcol, d, ⟨hd, hdict, ?_⟩, ?_⟩
    · have hu32 : u32 d.segmentCount = d.segmentCount := hrowCount
      rwa [hu32]
    · rw [hoffset, hrowCount]

theorem anyInlineNulls_iff (hlaid : Laid ci split) :
    contents.anyInlineNulls ci split = true ↔ ∃ rg ∈ split, ∃ d, DictAt ci rg d ∧
      d.segmentCount ≠ 0 ∧ (contents.dictBytes ci rg d).inlineNull = true := by
  simp only [anyInlineNulls, any_eq_true, mem_dictSegments hlaid]
  constructor
  · rintro ⟨_, ⟨before, rg, d, ⟨after, hsplit⟩, hdict, hcount, rfl⟩, hnull⟩
    exact ⟨rg, by simp [hsplit], d, hdict, hcount, hnull⟩
  · rintro ⟨rg, hrg, d, hdict, hcount, hnull⟩
    obtain ⟨before, after, hsplit⟩ := append_of_mem hrg
    exact ⟨_, ⟨before, rg, d, ⟨after, hsplit⟩, hdict, hcount, rfl⟩, hnull⟩

theorem any_marks_iff (hlaid : Laid ci split) (hrow : RowAt split before rg k) :
    (contents.dictSegments ci split).any (·.marks (totalRows before + k)) = true ↔
      ∃ d, DictAt ci rg d ∧ d.Covers k ∧
        (contents.dictBytes ci rg d).marks (k - d.segmentStart) = true := by
  simp only [any_eq_true, mem_dictSegments hlaid, DictSegment.marks, Bool.and_eq_true,
    decide_eq_true_eq]
  constructor
  · rintro ⟨_, ⟨before', rg', d, ⟨after', hsplit'⟩, hdict, hcount, rfl⟩, ⟨hstart, hend⟩, hmarks⟩
    obtain ⟨⟨col, hcol, hd⟩, -⟩ := id hdict
    have hle := hlaid.data_le rg' (by simp [hsplit']) col hcol d hd
    have hrow' : RowAt split before' rg' (totalRows before + k - totalRows before') :=
      ⟨⟨after', hsplit'⟩, by simp only at hstart hend; omega⟩
    simp only at hstart hend hmarks
    obtain ⟨rfl, rfl, -⟩ := hrow.eq_of_place hrow' (by omega)
    refine ⟨d, hdict, ⟨by omega, by omega⟩, ?_⟩
    rwa [Nat.add_sub_add_left] at hmarks
  · rintro ⟨d, hdict, ⟨hstart, hend⟩, hmarks⟩
    refine ⟨_, ⟨before, rg, d, hrow.place, hdict, by omega, rfl⟩, ⟨?_, ?_⟩, ?_⟩
    · exact Nat.add_le_add_left hstart _
    · show totalRows before + k < totalRows before + d.segmentStart + d.segmentCount
      omega
    · rwa [Nat.add_sub_add_left]

variable (contents) in
theorem overlayAll_of_hasNulls_eq_false (hlaid : Laid ci split)
    (h : (stagedColumn ci {} split).hasNulls = false) (r : Nat) :
    contents.overlayAll ci split r = true := by
  have hnil := validity_eq_nil_of_hasNulls_eq_false hlaid.stageable (fun _ => rfl) h
  have hpatches : contents.patches ci split = [] := by
    refine eq_nil_iff_forall_not_mem.2 fun p hp => ?_
    obtain ⟨before, rg, v, ⟨⟨after, hsplit⟩, ⟨col, hcol, hv⟩, hbitmap⟩, -⟩ := (mem_patches hlaid).1 hp
    obtain ⟨col', hcol', hsupported⟩ := hlaid.stageable rg (by simp [hsplit])
    obtain rfl := Option.mem_unique hcol hcol'
    have hmem : v ∈ col.stagedValidity := by
      refine mem_filter.2 ⟨hv, ?_⟩
      rw [← isValidityBitmap_eq_not (hsupported v hv), hbitmap]
    have hstaged := (mem_stagedColumn_validity hlaid.stageable hlaid.rows).2
      ⟨before, v, ⟨rg, after, col, hsplit, hcol, hmem⟩, rfl⟩
    rw [hnil] at hstaged
    cases hstaged
  rw [overlayAll, hpatches]
  rfl

variable {c : ScanColumn}

/-- **The NULLs of a decoded column** are those of the bitmaps, those that the bits behind a bitmap make
and those that are marked. -/
theorem decodedNull_iff (hlaid : Laid c.index split) (hrow : RowAt split before rg k) :
    contents.decodedNull c split (totalRows before + k) = true ↔
      contents.Cleared c.index rg k ∨ contents.Padded c.index split (totalRows before + k) ∨
        contents.Marked split c rg k := by
  rw [← or_assoc, ← overlayAll_rowAt_iff contents hlaid hrow, Marked, ← anyInlineNulls_iff hlaid, ← any_marks_iff hlaid hrow]
  unfold decodedNull
  cases hvarchar : isVarchar c.type with
  | true =>
    simp only [stringMask, if_true]
    cases hnulls : (stagedColumn c.index {} split).hasNulls with
    | true => simp
    | false =>
      have hvalid := overlayAll_of_hasNulls_eq_false contents hlaid hnulls
      cases contents.anyInlineNulls c.index split <;> simp [hvalid]
  | false =>
    have htotal : u32 (stagedColumn c.index {} split).totalRows ≠ 0 := by
      have hrows := hlaid.rows
      have hlt := hrow.lt_totalRows
      have hzero : ({} : StagedColumn).totalRows = 0 := rfl
      rw [totalRows_stagedColumn hlaid.stageable (by omega), hzero, Nat.zero_add, u32_of_lt hrows]
      omega
    simp only [fixedWidthMask, Bool.false_eq_true, if_false, false_and, or_false, beq_eq_false_iff_ne.2
      htotal, Bool.or_false]
    cases hnulls : (stagedColumn c.index {} split).hasNulls with
    | true =>
      cases hpatches : contents.patches c.index split with
      | nil => simp [overlayAll, hpatches]
      | cons p ps => simp
    | false => simp [overlayAll_of_hasNulls_eq_false contents hlaid hnulls]

/-! ## Tables -/

section Table

variable {storage : DataTable} {projectedCols : List ProjectedColumn}
  {projectedTypes : List LogicalType} {rowGroups : List RowGroupMetadata} {approximateBatchSize : Nat}

section

variable (htiled : storage.Tiled)
  (hviable : walkDuckdbNativeMetadata storage projectedCols projectedTypes = .ok rowGroups)

include htiled hviable

theorem once_of_walk (hrg : rg ∈ rowGroups) {col : ColumnMetadata} (hcol : rg.columns[ci]? = some col)
    (hv : v ∈ col.validitySegments) (hv' : v' ∈ col.validitySegments) (hk : v.Covers k)
    (hk' : v'.Covers k) : v = v' := by
  have hpc : rg.columns[ci]? = _ := columns_of_walk hviable hrg
  rw [hcol, eq_comm, Option.map_eq_some_iff] at hpc
  obtain ⟨pc, hpc, -⟩ := hpc
  obtain ⟨columnData, hg, s, hs, hpath, rfl⟩ := mem_validity_of_walk hviable hrg hcol hpc hv
  obtain ⟨columnData', hg', s', hs', hpath', rfl⟩ := mem_validity_of_walk hviable hrg hcol hpc hv'
  cases hg.symm.trans hg'
  rw [htiled.validity_eq hg hs hs' hpath hpath' hk hk']

/-- **The bits of the bitmaps** are the NULLs of the table, for the rows that are in one. -/
theorem inBitmap_and_storedNull_iff (hrg : rg ∈ rowGroups) {pc : ProjectedColumn}
    (hpc : projectedCols[ci]? = some pc) (hrowid : pc.isRowid = false) :
    InBitmap ci rg k ∧ contents.StoredNull storage rg.rowGroupIndex pc.storageIdx k ↔
      contents.Cleared ci rg k := by
  have hid : rg.columnId ci = pc.storageIdx := by
    rw [RowGroupMetadata.columnId, columns_of_walk hviable hrg, hpc]
    exact if_neg (by rw [hrowid]; exact Bool.false_ne_true)
  -- what is staged for a segment of the table is what the table holds in it
  have hbit : ∀ s : StorageSegment, s.Covers k →
      isValidityBitmap (parseCompressionString s.compressionType) = true →
      contents.validityBit ci rg
          (buildSegmentDescriptor projectedTypes ci (s.info rg.rowGroupIndex pc.storageIdx))
          (k - s.segmentStart) =
        if parseCompressionString s.compressionType = .roaring then
          (contents.roaring rg.rowGroupIndex pc.storageIdx s.segmentStart).bit (k - s.segmentStart)
        else contents.bitmap rg.rowGroupIndex pc.storageIdx s.segmentStart (k - s.segmentStart) := by
    intro s hcovers _
    rw [validityBit, hid]
    have hlt : k - s.segmentStart < s.segmentCount := by
      have hstart := hcovers.1
      have hend := hcovers.2
      omega
    by_cases hroaring : parseCompressionString s.compressionType = .roaring
    · rw [if_pos hroaring]
      exact (congrFun (if_pos hroaring) _).trans (RoaringSegment.decodeRoaringValidity_eq hlt)
    · rw [if_neg hroaring]
      exact congrFun (if_neg hroaring) _
  constructor
  · rintro ⟨⟨col, hcol, v, hv, hcovers, hbitmap⟩, columnData', hg', s', hs', hpath', hcovers', hnull⟩
    refine ⟨col, hcol, v, hv, hcovers, hbitmap, ?_⟩
    obtain ⟨columnData, hg, s, hs, hpath, rfl⟩ := mem_validity_of_walk hviable hrg hcol hpc hv
    cases hg.symm.trans hg'
    obtain rfl := htiled.validity_eq hg hs hs' hpath hpath' hcovers hcovers'
    have hbitmap : isValidityBitmap (parseCompressionString s.compressionType) = true := hbitmap
    refine (hbit s hcovers hbitmap).trans ?_
    cases hcompression : parseCompressionString s.compressionType <;>
      simp_all [isValidityBitmap]
  · rintro ⟨col, hcol, v, hv, hcovers, hbitmap, hcleared⟩
    refine ⟨⟨col, hcol, v, hv, hcovers, hbitmap⟩, ?_⟩
    obtain ⟨columnData, hg, s, hs, hpath, rfl⟩ := mem_validity_of_walk hviable hrg hcol hpc hv
    have hbitmap : isValidityBitmap (parseCompressionString s.compressionType) = true := hbitmap
    refine ⟨columnData, hg, s, hs, hpath, hcovers, ?_⟩
    have hvalue := (hbit s hcovers hbitmap).symm.trans hcleared
    cases hcompression : parseCompressionString s.compressionType <;>
      simp_all [isValidityBitmap]

theorem laid_of_decode
    (hsplit : split ∈ partitionRowGroupsIntoBatches approximateBatchSize projectedTypes rowGroups)
    {anyInlineNulls : Nat → Bool}
    (hdecode : decodeDuckdbNativeSplit projectedCols projectedTypes anyInlineNulls split = .ok ())
    (hc : c ∈ scanColumns projectedCols projectedTypes) : Laid c.index split := by
  obtain ⟨hne, hsubset, hcapped, hacc⟩ := accepted_of_split htiled hviable hsplit
  obtain ⟨-, htypes, -⟩ := walk_eq_ok hviable
  have hdecodable := (decode_eq_ok_iff_of_accepted hne hacc
    (fun c hc => isSupportedLogicalType_of_checkTypes htypes hc) hcapped).1 hdecode
  have hcolumn : ∀ rg ∈ split, ∀ col ∈ rg.columns[c.index]?,
      (∀ seg ∈ col.dataSegments, seg.segmentStart + seg.segmentCount ≤ rg.rowCount) ∧
      ∀ seg ∈ col.validitySegments, seg.segmentStart + seg.segmentCount ≤ rg.rowCount := by
    intro rg hrg col hcol
    obtain ⟨col', hcol', hdata, hvalidity, -⟩ := (hacc rg hrg).column c hc
    obtain rfl := Option.mem_unique hcol' hcol
    exact ⟨hdata, hvalidity⟩
  exact
    { stageable := stageable_of_accepted hacc hc
      rows := hdecodable.rows.trans_lt (by decide)
      data_le := fun rg hrg col hcol => (hcolumn rg hrg col hcol).1
      validity_le := fun rg hrg col hcol => (hcolumn rg hrg col hcol).2
      once := fun rg hrg col hcol v hv v' hv' k =>
        once_of_walk htiled hviable (hsubset hrg) hcol hv hv'
      aligned := hdecodable.aligned c hc }

end

variable (contents) (storage) (split) in
/-- **The tables whose NULLs survive**, for one column and one split. A NULL row has its validity in a
bitmap, or it is marked; no valid row is marked. The bits behind the last row of a bitmap count as well
where they reach a row without a bitmap. -/
structure NullsKept (c : ScanColumn) (pc : ProjectedColumn) : Prop where
  kept : ∀ before rg k, RowAt split before rg k →
    contents.StoredNull storage rg.rowGroupIndex pc.storageIdx k →
      InBitmap c.index rg k ∨ contents.Marked split c rg k ∨
        contents.Padded c.index split (totalRows before + k)
  valid : ∀ before rg k, RowAt split before rg k →
    ¬ contents.StoredNull storage rg.rowGroupIndex pc.storageIdx k →
      ¬ contents.Marked split c rg k ∧ ¬ contents.Padded c.index split (totalRows before + k)

/-- **Which NULLs survive**, in every column of every split of a viable table that is decoded. -/
theorem nulls_survive_iff (contents : Contents) (htiled : storage.Tiled)
    (hviable : walkDuckdbNativeMetadata storage projectedCols projectedTypes = .ok rowGroups)
    (hsplit : split ∈ partitionRowGroupsIntoBatches approximateBatchSize projectedTypes rowGroups)
    (hdecode : decodeDuckdbNativeSplit projectedCols projectedTypes
      (fun ci => contents.anyInlineNulls ci split) split = .ok ())
    {c : ScanColumn} (hc : c ∈ scanColumns projectedCols projectedTypes) {pc : ProjectedColumn}
    (hpc : projectedCols[c.index]? = some pc) :
    (∀ before rg k, RowAt split before rg k →
      (contents.decodedNull c split (totalRows before + k) = true ↔
        contents.StoredNull storage rg.rowGroupIndex pc.storageIdx k)) ↔
      contents.NullsKept split storage c pc := by
  have hlaid := laid_of_decode htiled hviable hsplit hdecode hc
  have hcleared : ∀ before rg k, RowAt split before rg k →
      (InBitmap c.index rg k ∧ contents.StoredNull storage rg.rowGroupIndex pc.storageIdx k ↔
        contents.Cleared c.index rg k) := by
    rintro before rg k ⟨⟨after, hplace⟩, -⟩
    obtain ⟨pc', hpc', -, hrowid⟩ := mem_scanColumns.1 hc
    obtain rfl := Option.mem_unique hpc hpc'
    have hsubset := (accepted_of_split htiled hviable hsplit).2.1
    exact inBitmap_and_storedNull_iff htiled hviable (hsubset (by simp [hplace])) hpc hrowid
  constructor
  · intro h
    refine ⟨fun before rg k hrow hnull => ?_, fun before rg k hrow hnull => ?_⟩
    · rcases (decodedNull_iff hlaid hrow).1 ((h before rg k hrow).2 hnull) with hbit | hpad | hmark
      · exact .inl ((hcleared before rg k hrow).2 hbit).1
      · exact .inr (.inr hpad)
      · exact .inr (.inl hmark)
    · have hvalid := fun hor => hnull ((h before rg k hrow).1 ((decodedNull_iff hlaid hrow).2 hor))
      exact ⟨fun hmark => hvalid (.inr (.inr hmark)), fun hpad => hvalid (.inr (.inl hpad))⟩
  · rintro ⟨hkept, hvalid⟩ before rg k hrow
    rw [decodedNull_iff hlaid hrow, ← hcleared before rg k hrow]
    constructor
    · rintro (⟨-, hnull⟩ | hpad | hmark)
      · exact hnull
      · exact not_not.1 fun hnull => (hvalid before rg k hrow hnull).2 hpad
      · exact not_not.1 fun hnull => (hvalid before rg k hrow hnull).1 hmark
    · intro hnull
      rcases hkept before rg k hrow hnull with hin | hmark | hpad
      · exact .inl ⟨hin, hnull⟩
      · exact .inr (.inr hmark)
      · exact .inr (.inl hpad)

/-- Whatever the segments hold, the NULLs survive if all of them are in bitmaps that fill their bytes. -/
theorem nullsKept_of_bitmaps
    (hviable : walkDuckdbNativeMetadata storage projectedCols projectedTypes = .ok rowGroups)
    (hsubset : split ⊆ rowGroups) {pc : ProjectedColumn} (hpc : projectedCols[c.index]? = some pc)
    (hlookup : projectedLookup projectedCols pc.storageIdx = some c.index)
    (h : ∀ (g : Nat) columnData, storage.rowGroups[g]? = some (some columnData) →
      ∀ seg ∈ columnData pc.storageIdx, if isValidityPath seg.columnPath then
        isValidityBitmap (parseCompressionString seg.compressionType) = true ∧ seg.segmentCount % 8 = 0
      else parseCompressionString seg.compressionType ≠ .dictFsst) :
    contents.NullsKept split storage c pc := by
  have hmem : ∀ {before rg k}, RowAt split before rg k → rg ∈ split := by
    rintro before rg k ⟨⟨after, rfl⟩, -⟩
    simp
  have hcolumn : ∀ rg ∈ split, rg.columns[c.index]? =
      some (walkedColumn storage projectedCols projectedTypes rg.rowGroupIndex c.index pc) := by
    intro rg hrg
    rw [columns_of_walk hviable (hsubset hrg), hpc]
    rfl
  refine ⟨fun before rg k hrow hnull => .inl ?_, fun before rg k hrow _ => ⟨?_, ?_⟩⟩
  · obtain ⟨columnData, hg, s, hs, hpath, hcovers, -⟩ := hnull
    have hseg := h _ columnData hg s hs
    rw [if_pos hpath] at hseg
    obtain ⟨p, hp, hrowid⟩ := findIdx?_eq_some_iff_getElem.1 hlookup
    refine ⟨_, hcolumn rg (hmem hrow), _, mem_walkedColumn_validity.2 (mem_descriptors.2
      ⟨_, mem_columnSegments.2 ⟨_, columnData, hg, pc, mem_of_getElem? hpc, ?_, s, hs, rfl⟩, rfl, hlookup,
        hpath, rfl⟩), hcovers, hseg.1⟩
    obtain rfl : projectedCols[c.index] = pc := Option.some.inj ((getElem?_eq_getElem p).symm.trans hpc)
    simpa using (Bool.and_eq_true_iff.1 hp).1
  · rintro ⟨-, -, d, ⟨⟨col, hcol, hd⟩, hdict⟩, -⟩
    cases (hcolumn rg (hmem hrow)).symm.trans hcol
    obtain ⟨columnData, hg, s, hs, hpath, rfl⟩ := mem_of_mem_descriptors (mem_walkedColumn_data.1 hd) hpc
    have hseg := h _ columnData hg s hs
    rw [if_neg (by rw [hpath]; exact Bool.false_ne_true)] at hseg
    exact hseg hdict
  · rintro ⟨before', rg', v, ⟨⟨after', hplace⟩, ⟨col, hcol, hv⟩, -⟩, hr, -⟩
    cases (hcolumn rg' (by simp [hplace])).symm.trans hcol
    obtain ⟨columnData, hg, s, hs, hpath, rfl⟩ := mem_of_mem_descriptors (mem_walkedColumn_validity.1 hv) hpc
    have hseg := h _ columnData hg s hs
    rw [if_pos hpath] at hseg
    have hfull : s.segmentCount % 8 = 0 := hseg.2
    have hrow : totalRows before' + s.segmentStart + s.segmentCount ≤ totalRows before + k ∧
        totalRows before + k < totalRows before' + s.segmentStart + (s.segmentCount + 7) / 8 * 8 := hr
    omega

/-- Two row groups of eight rows, with an UNCOMPRESSED and a ROARING bitmap. -/
def bitmapsTable : DataTable where
  partitionStats := [⟨some 0, 8⟩, ⟨some 8, 8⟩]
  rowGroups := ["Uncompressed", "Roaring"].map fun validity => some fun _ =>
    segmentPair 8 "BitPacking" validity

/-- Row 3 of each row group is NULL. -/
def row3Null : Contents where
  bitmap := fun _ _ _ k => k != 3
  roaring := fun _ _ _ => ⟨fun k => k != 3, fun start _ => some fun i => start + i != 3, fun _ _ _ _ => rfl⟩
  constantNull := fun _ _ _ => false
  dictFsst := fun _ _ _ => ⟨0, ⟨0, 0, 0, 0, 0, 0⟩, 0, fun _ => 0⟩

theorem nulls_survive_row3 : ∃ rowGroups,
    walkDuckdbNativeMetadata bitmapsTable [⟨0, false⟩] [.make .bigint] = .ok rowGroups ∧
    row3Null.decodedNull ⟨.make .bigint, 0⟩ rowGroups 3 = true ∧
    row3Null.decodedNull ⟨.make .bigint, 0⟩ rowGroups 11 = true ∧
    ∀ before rg k, RowAt rowGroups before rg k →
      (row3Null.decodedNull ⟨.make .bigint, 0⟩ rowGroups (totalRows before + k) = true ↔
        row3Null.StoredNull bitmapsTable rg.rowGroupIndex 0 k) := by
  obtain ⟨rowGroups, hwalk, hsplit, hdecode, hthree, heleven⟩ : ∃ rowGroups,
      walkDuckdbNativeMetadata bitmapsTable [⟨0, false⟩] [.make .bigint] = .ok rowGroups ∧
      rowGroups ∈ partitionRowGroupsIntoBatches 0 [.make .bigint] rowGroups ∧
      decodeDuckdbNativeSplit [⟨0, false⟩] [.make .bigint]
        (fun ci => row3Null.anyInlineNulls ci rowGroups) rowGroups = .ok () ∧
      row3Null.decodedNull ⟨.make .bigint, 0⟩ rowGroups 3 = true ∧
      row3Null.decodedNull ⟨.make .bigint, 0⟩ rowGroups 11 = true :=
    ⟨_, rfl, mem_singleton_self _, rfl, rfl, rfl⟩
  have htiled : bitmapsTable.Tiled := by
    intro g columnData hg
    match g with
    | 0 | 1 =>
      cases hg
      exact ⟨8, by rintro _ ⟨⟩; rfl, fun _ => tiledColumn_segmentPair ..⟩
    | _ + 2 => cases hg
  refine ⟨rowGroups, hwalk, hthree, heleven, (nulls_survive_iff row3Null htiled hwalk hsplit
    hdecode (c := ⟨.make .bigint, 0⟩) (mem_singleton_self _) rfl).2
      (nullsKept_of_bitmaps hwalk (Subset.refl _) rfl rfl fun g columnData hg => ?_)⟩
  match g with
  | 0 | 1 =>
    cases hg
    decide
  | _ + 2 => cases hg

/-! ## NULLs that are lost -/

def eightRows (data validity : String) : DataTable where
  partitionStats := [⟨some 0, 8⟩]
  rowGroups := [some fun _ => [
    { columnPath := "[0]", segmentStart := 0, segmentCount := 8, compressionType := data,
      segmentStats := "Max String Length: 0" },
    { columnPath := "[0, 0]", segmentStart := 0, segmentCount := 8, compressionType := validity }]]

/-- Every row is NULL: by the statistics of a CONSTANT segment, and in a DICT_FSST segment with only
the entry for NULL in its dictionary. -/
def allNull : Contents where
  bitmap := fun _ _ _ _ => true
  roaring := fun _ _ _ => ⟨fun _ => true, fun _ _ => none, fun _ _ _ _ => rfl⟩
  constantNull := fun _ _ _ => true
  dictFsst := fun _ _ _ => ⟨64, ⟨0, 1, 0, 0, 0, 0⟩, 0, fun _ => 0⟩

/-- All rows of both tables are NULL, and all decoded rows are valid. -/
theorem all_nulls_lost :
    (∃ rowGroups, walkDuckdbNativeMetadata (eightRows "Constant" "Constant") [⟨0, false⟩]
        [.make .bigint] = .ok rowGroups ∧
      rowGroups ∈ partitionRowGroupsIntoBatches 0 [.make .bigint] rowGroups ∧
      decodeDuckdbNativeSplit [⟨0, false⟩] [.make .bigint]
        (fun ci => allNull.anyInlineNulls ci rowGroups) rowGroups = .ok () ∧
      ∃ rg, rowGroups = [rg] ∧ rg.rowCount = 8 ∧ ∀ k < 8,
        allNull.StoredNull (eightRows "Constant" "Constant") rg.rowGroupIndex 0 k ∧
        allNull.decodedNull ⟨.make .bigint, 0⟩ rowGroups k = false) ∧
    ∃ rowGroups, walkDuckdbNativeMetadata (eightRows "DICT_FSST" "Empty Validity") [⟨0, false⟩]
        [.make .varchar] = .ok rowGroups ∧
      rowGroups ∈ partitionRowGroupsIntoBatches 0 [.make .varchar] rowGroups ∧
      decodeDuckdbNativeSplit [⟨0, false⟩] [.make .varchar]
        (fun ci => allNull.anyInlineNulls ci rowGroups) rowGroups = .ok () ∧
      ∃ rg, rowGroups = [rg] ∧ rg.rowCount = 8 ∧ ∀ k < 8,
        allNull.StoredNull (eightRows "DICT_FSST" "Empty Validity") rg.rowGroupIndex 0 k ∧
        allNull.decodedNull ⟨.make .varchar, 0⟩ rowGroups k = false := by
  refine ⟨⟨_, rfl, mem_singleton_self _, rfl, _, rfl, rfl, fun k hk => ⟨?_, rfl⟩⟩,
    _, rfl, mem_singleton_self _, rfl, _, rfl, rfl, fun k hk => ⟨?_, rfl⟩⟩
  · exact ⟨_, rfl, _, .tail _ (.head _), rfl, ⟨Nat.zero_le _, Nat.zero_add 8 ▸ hk⟩, rfl⟩
  · exact ⟨_, rfl, _, .tail _ (.head _), rfl, ⟨Nat.zero_le _, Nat.zero_add 8 ▸ hk⟩, _, .head _, rfl,
      ⟨Nat.zero_le _, Nat.zero_add 8 ▸ hk⟩, rfl, rfl⟩

end Table

end Contents

end Sirius.Native
