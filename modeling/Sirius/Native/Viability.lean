import Sirius.Native.Accepted
import Sirius.Native.Staging

/-!
# Which splits of a viable table can be decoded

A viable table is meant to be one that the GPU can decode. The walker accepts more than the decoder
does, though. It supports codecs whatever the type of the column, while the stagers know four codecs
for columns of fixed width and four others for strings. It accepts a row group of any number of rows,
while the bitmap of a validity segment has to start at a byte, so that a row group of, say, twelve rows
puts the NULLs of the next row group of the same split out of place. It leaves the number of rows of a
split to the size of a batch, which may be unlimited. And it accepts a DECIMAL of at most four digits,
for which cuDF has no type.

`decodeDuckdbNativeSplit_eq_ok_iff` shows that these four are all: a split of a viable table is decoded
if and only if it is `Decodable`. The bounds of the segments, the sizes of the values and the number of
characters are never in the way.
-/

namespace Sirius.Native

open Expression (LogicalType DataType getCudfType)
open Lib List

/-! ## The columns of a split -/

/-- The decoder knows the codec of the segment for columns of the type. -/
def isDecodableSegment (type : LogicalType) (seg : SegmentDescriptor) : Bool :=
  if isVarchar type then isSupportedVarcharCodec seg.compression && 0 ≤ seg.blockId
  else isSupportedFixedWidthCodec seg.compression

/-- Every data segment of the column has a codec that the decoder knows. -/
def DecodableColumn (split : List RowGroupMetadata) (c : ScanColumn) : Prop :=
  ∀ rg ∈ split, ∀ col ∈ rg.columns[c.index]?, ∀ seg ∈ col.dataSegments,
    isDecodableSegment c.type seg = true

/-- Every bitmap of the column starts at a byte of the validity of the split. -/
def AlignedColumn (split : List RowGroupMetadata) (c : ScanColumn) : Prop :=
  ∀ before rg after, split = before ++ rg :: after → ∀ col ∈ rg.columns[c.index]?,
    ∀ v ∈ col.validitySegments, isValidityBitmap v.compression = true → v.segmentCount ≠ 0 →
      (totalRows before + v.segmentStart) % 8 = 0

section Columns

variable {projectedCols : List ProjectedColumn} {projectedTypes : List LogicalType}
  {split : List RowGroupMetadata} {c : ScanColumn} {type : LogicalType}

theorem isConstantExtractable_of_supported (h : isSupportedLogicalType type = .ok ())
    (hvarchar : isVarchar type = false) : isConstantExtractable type = true := by
  obtain ⟨id, precision, scale⟩ := type
  cases id <;> simp_all [isSupportedLogicalType, isConstantExtractable, isVarchar]

/-- The segments of a column pass the checks of the stager if the decoder knows their codecs. -/
theorem stageColumn_eq_ok_iff (hsplit : Stageable c.index split)
    (htype : isSupportedLogicalType c.type = .ok ()) {result : StagedColumn} :
    stageColumn split c = .ok result ↔
      DecodableColumn split c ∧ stagedColumn c.index {} split = result := by
  cases hvarchar : isVarchar c.type with
  | true =>
    have hcheck : ∀ columnId seg, checkVarcharSegment columnId seg = .ok () ↔
        isDecodableSegment c.type seg = true := by
      intro columnId seg
      simp [checkVarcharSegment, seq_eq_ok_iff, isDecodableSegment, hvarchar]
    rw [stageColumn, if_pos hvarchar, stageOneVarcharColumn, stageOneColumn,
      foldlM_stageRowGroup hsplit]
    simp only [hcheck]
    rfl
  | false =>
    have hcheck : ∀ columnId seg, checkFixedWidthSegment c.type columnId seg = .ok () ↔
        isDecodableSegment c.type seg = true := by
      intro columnId seg
      simp [checkFixedWidthSegment, seq_eq_ok_iff, isDecodableSegment, hvarchar,
        isConstantExtractable_of_supported htype hvarchar]
    rw [stageColumn, if_neg (by simp [hvarchar]), stageOneFixedWidthColumn, stageOneColumn,
      foldlM_stageRowGroup hsplit]
    simp only [hcheck]
    rfl

/-- The segments lie within the split, so that the check of the bounds passes. -/
theorem validateSegmentBounds_eq_ok {staged : List StagedSegment} {total : Nat} {what : String}
    (h : ∀ s ∈ staged, s.rowOffset + s.rowCount ≤ total) :
    validateSegmentBounds (fillFixedWidthRuns staged) total what = .ok () := by
  have hruns : ∀ run ∈ fillFixedWidthRuns staged, ∀ d ∈ run.segments,
      d.rowOffset + d.rowCount ≤ total :=
    (forall_mem_fillRuns fun _ (d : SegmentDesc) => d.rowOffset + d.rowCount ≤ total).2 h
  refine forM_eq_ok_iff.2 fun run hrun => forM_eq_ok_iff.2 fun d hd => ?_
  simpa using hruns run hrun d hd

def columnInput (split : List RowGroupMetadata) (c : ScanColumn) (outType : DataType) :
    ColumnDecodeInput where
  outType := outType
  totalRows := u32 (stagedColumn c.index {} split).totalRows
  hasNulls := (stagedColumn c.index {} split).hasNulls
  data := fillFixedWidthRuns (stagedColumn c.index {} split).data
  validity := fillFixedWidthRuns (stagedColumn c.index {} split).validity

theorem totalRows_input (hsplit : Stageable c.index split) (hrows : totalRows split < 2 ^ 32) :
    u32 (stagedColumn c.index {} split).totalRows = totalRows split := by
  have h : (stagedColumn c.index {} split).totalRows = 0 + totalRows split :=
    totalRows_stagedColumn hsplit (by simpa using hrows)
  rw [h, Nat.zero_add, u32_of_lt hrows]

theorem exists_siriusToCudfType_iff (h : isSupportedLogicalType type = .ok ())
    (hvarchar : isVarchar type = false) :
    (∃ outType, siriusToCudfType type = .ok outType) ↔ (type.id = .decimal → 4 < type.precision) := by
  obtain ⟨id, precision, scale⟩ := type
  unfold siriusToCudfType getCudfType
  cases id with
  | decimal =>
    simp only [forall_const]
    split
    next hshort =>
      refine iff_of_false ?_ (by omega)
      rintro ⟨_, ⟨⟩⟩
    next hlong =>
      refine iff_of_true ?_ (by omega)
      split
      · exact ⟨_, rfl⟩
      · split <;> exact ⟨_, rfl⟩
  | struct | list | invalid | sqlNull => cases h
  | _ => exact iff_of_true ⟨_, rfl⟩ nofun

theorem fixedWidth_of_siriusToCudfType {outType : DataType}
    (h : isSupportedLogicalType type = .ok ()) (hvarchar : isVarchar type = false)
    (htype : siriusToCudfType type = .ok outType) :
    outType.isFixedWidth = true ∧ cudfSizeOf outType ∈ [1, 2, 4, 8] := by
  obtain ⟨id, precision, scale⟩ := type
  unfold siriusToCudfType getCudfType at htype
  cases id with
  | decimal =>
    simp only at htype
    split at htype
    · cases htype
    · split at htype
      · cases htype
        simp [DataType.isFixedWidth, cudfSizeOf]
      · split at htype
        · cases htype
          simp [DataType.isFixedWidth, cudfSizeOf]
        · simp_all [isSupportedLogicalType]
  | varchar => cases hvarchar
  | struct | list | invalid | sqlNull | hugeint | uhugeint => cases h
  | _ =>
    cases htype
    decide

theorem dispatchDataRun_eq_ok {typeSize : Nat} {run : CodecRun SegmentDesc}
    (hsize : typeSize ∈ [1, 2, 4, 8]) (hcodec : isSupportedFixedWidthCodec run.codec = true) :
    dispatchDataRun typeSize run = .ok () := by
  unfold dispatchDataRun
  cases hrun : run.codec with
  | rle | bitpacking =>
    simp only [refuseIf_eq_ok, Bool.not_eq_false', contains_iff_mem]
    exact hsize
  | uncompressed | constant => rfl
  | _ =>
    rw [hrun] at hcodec
    cases hcodec

section Accepted

variable (hacc : ∀ rg ∈ split, rg.Accepted projectedCols projectedTypes)
  (hc : c ∈ scanColumns projectedCols projectedTypes)

include hacc hc

theorem stageable_of_accepted : Stageable c.index split := by
  intro rg hrg
  obtain ⟨col, hcol, -, -, hvalidity, -⟩ := (hacc rg hrg).column c hc
  exact ⟨col, hcol, hvalidity⟩

theorem segment_le {before after : List RowGroupMetadata} {rg : RowGroupMetadata}
    {col : ColumnMetadata} (hsplit : split = before ++ rg :: after)
    (hcol : rg.columns[c.index]? = some col) :
    (∀ seg ∈ col.dataSegments, seg.segmentStart + seg.segmentCount ≤ rg.rowCount) ∧
      (∀ seg ∈ col.validitySegments, seg.segmentStart + seg.segmentCount ≤ rg.rowCount) ∧
      ∀ seg ∈ col.validitySegments, isSupportedValidityCompression seg.compression = true := by
  obtain ⟨col', hcol', hdata, hvalidity, hsupported, -⟩ := (hacc rg (by simp [hsplit])).column c hc
  obtain rfl := Option.mem_unique hcol' hcol
  exact ⟨hdata, hvalidity, hsupported⟩

/-- The validity of a column can be copied if its bitmaps start at a byte. -/
theorem forM_copyValidityRun_eq_ok_iff (hrows : totalRows split < 2 ^ 32) {function : String} :
    (fillFixedWidthRuns (stagedColumn c.index {} split).validity).forM (copyValidityRun function) =
        .ok () ↔ AlignedColumn split c := by
  have hstage := stageable_of_accepted hacc hc
  unfold fillFixedWidthRuns
  have hcodec : ∀ run ∈ fillRuns StagedSegment.desc (stagedColumn c.index {} split).validity,
      run.codec = .uncompressed := by
    refine (forall_codec_fillRuns (· = .uncompressed)).2 fun s hs => ?_
    obtain ⟨before, seg, -, rfl⟩ := (mem_stagedColumn_validity hstage hrows).1 hs
    rfl
  have hruns : (fillRuns StagedSegment.desc (stagedColumn c.index {} split).validity).forM
        (copyValidityRun function) = .ok () ↔
      ∀ s ∈ (stagedColumn c.index {} split).validity, s.rowCount ≠ 0 → s.rowOffset % 8 = 0 := by
    rw [forM_eq_ok_iff]
    refine Iff.trans (forall₂_congr fun run hrun => ?_) (forall_mem_fillRuns
      fun _ (d : SegmentDesc) => d.rowCount ≠ 0 → d.rowOffset % 8 = 0)
    rw [copyValidityRun, seq_eq_ok_iff, forM_eq_ok_iff, refuseIf_eq_ok, hcodec run hrun]
    simp
  rw [hruns]
  constructor
  · intro h before rg after hsplit col hcol v hv hbitmap hcount
    obtain ⟨-, hle, hsupported⟩ := segment_le hacc hc hsplit hcol
    obtain ⟨hoffset, hrowCount, -⟩ := rowOffset_stageData hsplit hrows (hle v hv)
    have hmem : v ∈ col.stagedValidity := by
      refine mem_filter.2 ⟨hv, ?_⟩
      rw [← isValidityBitmap_eq_not (hsupported v hv), hbitmap]
    rw [← hoffset]
    refine h (stageValidity (totalRows before) v) ?_ (hrowCount ▸ hcount)
    exact (mem_stagedColumn_validity hstage hrows).2
      ⟨before, v, ⟨rg, after, col, hsplit, hcol, hmem⟩, rfl⟩
  · intro h s hs hcount
    obtain ⟨before, v, ⟨rg, after, col, hsplit, hcol, hv⟩, rfl⟩ :=
      (mem_stagedColumn_validity hstage hrows).1 hs
    obtain ⟨-, hle, hsupported⟩ := segment_le hacc hc hsplit hcol
    obtain ⟨hv, hkeep⟩ := mem_filter.1 hv
    obtain ⟨hoffset, hrowCount, -⟩ := rowOffset_stageData hsplit hrows (hle v hv)
    have hbitmap : isValidityBitmap v.compression = true := by
      rw [isValidityBitmap_eq_not (hsupported v hv), hkeep]
    have := h before rg after hsplit col hcol v hv hbitmap fun hzero =>
      hcount (hrowCount.trans hzero)
    rwa [← hoffset] at this

theorem stagedColumn_le (hrows : totalRows split < 2 ^ 32) :
    (∀ s ∈ (stagedColumn c.index {} split).data, s.rowOffset + s.rowCount ≤ totalRows split) ∧
      ∀ s ∈ (stagedColumn c.index {} split).validity, s.rowOffset + s.rowCount ≤ totalRows split := by
  have hstage := stageable_of_accepted hacc hc
  constructor
  · intro s hs
    obtain ⟨before, seg, ⟨rg, after, col, hsplit, hcol, hseg⟩, rfl⟩ :=
      (mem_stagedColumn_data hstage hrows).1 hs
    obtain ⟨hle, -⟩ := segment_le hacc hc hsplit hcol
    obtain ⟨hoffset, hrowCount, hend⟩ := rowOffset_stageData hsplit hrows (hle seg hseg)
    omega
  · intro s hs
    obtain ⟨before, seg, ⟨rg, after, col, hsplit, hcol, hseg⟩, rfl⟩ :=
      (mem_stagedColumn_validity hstage hrows).1 hs
    obtain ⟨-, hle, -⟩ := segment_le hacc hc hsplit hcol
    obtain ⟨hoffset, hrowCount, hend⟩ :=
      rowOffset_stageData hsplit hrows (hle seg (mem_filter.1 hseg).1)
    show (stageData (totalRows before) seg).rowOffset + (stageData (totalRows before) seg).rowCount ≤ _
    omega

theorem alignedColumn_of_totalRows_eq_zero (hrows : totalRows split = 0) :
    AlignedColumn split c := by
  intro before rg after hsplit col hcol v hv _ hcount
  have := (segment_le hacc hc hsplit hcol).2.1 v hv
  rw [hsplit, totalRows_split] at hrows
  omega

/-- **A column of fixed width is decoded if its bitmaps are aligned.** -/
theorem decodeColumn_eq_ok_iff (hsupported : isSupportedLogicalType c.type = .ok ())
    (hvarchar : isVarchar c.type = false) (hrows : totalRows split < 2 ^ 32)
    (hdata : DecodableColumn split c) {outType : DataType}
    (htype : siriusToCudfType c.type = .ok outType) :
    (do decodeColumnData (columnInput split c outType)
        decodeColumnValidity (columnInput split c outType)) = .ok () ↔ AlignedColumn split c := by
  have hstage := stageable_of_accepted hacc hc
  have htotal : (columnInput split c outType).totalRows = totalRows split :=
    totalRows_input hstage hrows
  obtain ⟨hfixed, hsize⟩ := fixedWidth_of_siriusToCudfType hsupported hvarchar htype
  have hcodecs : ∀ run ∈ fillFixedWidthRuns (stagedColumn c.index {} split).data,
      isSupportedFixedWidthCodec run.codec = true := by
    refine (forall_codec_fillRuns (isSupportedFixedWidthCodec · = true)).2 fun s hs => ?_
    obtain ⟨before, seg, ⟨rg, after, col, hsplit, hcol, hseg⟩, rfl⟩ :=
      (mem_stagedColumn_data hstage hrows).1 hs
    have := hdata rg (by simp [hsplit]) col hcol seg hseg
    rwa [isDecodableSegment, if_neg (by simp [hvarchar])] at this
  have hok : decodeColumnData (columnInput split c outType) = .ok () := by
    rw [decodeColumnData, seq_eq_ok_iff, seq_eq_ok_iff, htotal]
    refine ⟨by simpa [columnInput] using hfixed, ?_, forM_eq_ok_iff.2 fun run hrun => ?_⟩
    · exact validateSegmentBounds_eq_ok (stagedColumn_le hacc hc hrows).1
    · exact dispatchDataRun_eq_ok hsize (hcodecs run hrun)
  rw [seq_eq_ok_iff, and_iff_right hok, decodeColumnValidity, htotal]
  have hiff : (fillFixedWidthRuns (stagedColumn c.index {} split).validity).forM dispatchValidityRun =
      .ok () ↔ AlignedColumn split c := forM_copyValidityRun_eq_ok_iff hacc hc hrows
  split
  next hskip =>
    rw [Bool.or_eq_true, Bool.or_eq_true] at hskip
    refine iff_of_true rfl ?_
    rcases hskip with (hnulls | hzero) | hempty
    · have hnil := validity_eq_nil_of_hasNulls_eq_false hstage (fun _ => rfl)
        (by simpa [columnInput] using hnulls)
      rw [← hiff, hnil]
      rfl
    · exact alignedColumn_of_totalRows_eq_zero hacc hc (by simpa using hzero)
    · have hnil : fillFixedWidthRuns (stagedColumn c.index {} split).validity = [] := by
        simpa [columnInput] using hempty
      rw [← hiff, hnil]
      rfl
  next =>
    have hbounds : validateSegmentBounds (columnInput split c outType).validity (totalRows split)
        "validity" = .ok () := validateSegmentBounds_eq_ok (stagedColumn_le hacc hc hrows).2
    rw [seq_eq_ok_iff, and_iff_right hbounds]
    exact hiff

/-- **A string column is decoded if its bitmaps are aligned.** -/
theorem gpuDecodeStringsColumn_eq_ok_iff (hvarchar : isVarchar c.type = true)
    (hrows : totalRows split ≤ cudfSizeTypeMax) (hcapped : Capped projectedTypes split)
    (hdata : DecodableColumn split c) {anyInlineNulls : Bool} :
    gpuDecodeStringsColumn anyInlineNulls (stringInput (stagedColumn c.index {} split)) = .ok () ↔
      AlignedColumn split c := by
  have hrows' : totalRows split < 2 ^ 32 := by
    rw [cudfSizeTypeMax] at hrows
    omega
  have hstage := stageable_of_accepted hacc hc
  have htotal : (stringInput (stagedColumn c.index {} split)).totalRows = totalRows split :=
    totalRows_input hstage hrows'
  have hiff : (fillFixedWidthRuns (stagedColumn c.index {} split).validity).forM overlayValidityRun =
      .ok () ↔ AlignedColumn split c := forM_copyValidityRun_eq_ok_iff hacc hc hrows'
  rw [gpuDecodeStringsColumn, htotal]
  split
  next hzero => exact iff_of_true rfl (alignedColumn_of_totalRows_eq_zero hacc hc hzero)
  next =>
    have hruns : (stringInput (stagedColumn c.index {} split)).data.forM dispatchStringRun =
        .ok () := by
      refine forM_eq_ok_iff.2 ?_
      simp only [dispatchStringRun, refuseIf_eq_ok, Bool.not_eq_false']
      refine (forall_codec_fillRuns (isSupportedVarcharCodec · = true)).2 fun s hs => ?_
      obtain ⟨before, seg, ⟨rg, after, col, hsplit, hcol, hseg⟩, rfl⟩ :=
        (mem_stagedColumn_data hstage hrows').1 hs
      have := hdata rg (by simp [hsplit]) col hcol seg hseg
      rw [isDecodableSegment, if_pos hvarchar, Bool.and_eq_true] at this
      exact this.1
    have hchars : (stringInput (stagedColumn c.index {} split)).cumCharsUpper ≤ cudfSizeTypeMax := by
      have hsum : (stringInput (stagedColumn c.index {} split)).cumCharsUpper ≤
          charsOf c.index split := by
        have hle : ((stagedColumn c.index {} split).data.map fun s =>
            s.rowCount * s.maxStringLength).sum ≤ 0 + charsOf c.index split := by
          refine sum_chars_stagedColumn_le fun rg hrg => ?_
          obtain ⟨col, hcol, -, -, -, hbytes⟩ := (hacc rg hrg).column c hc
          exact ⟨col, hcol, hbytes hvarchar⟩
        simpa [StringColumnDecodeInput.cumCharsUpper, StringColumnDecodeInput.segments, stringInput,
          fillStringRuns, flatMap_segments_fillRuns, StagedSegment.stringDesc, StagedSegment.desc,
          Function.comp_def] using hle
      obtain ⟨pc, -, htype, -⟩ := mem_scanColumns.1 hc
      have hlt := hcapped c.index (by simp [isVarcharColumn, htype, hvarchar])
      have : cudfInt32StringsThreshold = cudfSizeTypeMax := rfl
      omega
    rw [seq_eq_ok_iff, seq_eq_ok_iff, seq_eq_ok_iff]
    rw [and_iff_right (by simpa using hrows), and_iff_right hruns,
      and_iff_right (by simp only [refuseIf_eq_ok]; simp; intro; exact hchars)]
    split
    next => exact hiff
    next hskip =>
      have hnil := validity_eq_nil_of_hasNulls_eq_false hstage (fun _ => rfl)
        (by simpa [stringInput] using And.left (by simpa [stringInput] using hskip))
      rw [← hiff, hnil]
      exact iff_of_true rfl rfl

end Accepted

theorem isSupportedLogicalType_of_checkTypes
    (h : checkTypes projectedCols projectedTypes = .ok ())
    (hc : c ∈ scanColumns projectedCols projectedTypes) : isSupportedLogicalType c.type = .ok () := by
  obtain ⟨pc, hpc, htype, hrowid⟩ := mem_scanColumns.1 hc
  have hmem : (pc, c.type) ∈ projectedCols.zip projectedTypes :=
    mem_of_getElem? (i := c.index) (getElem?_zip_eq_some.2 ⟨hpc, htype⟩)
  have hok := forM_eq_ok_iff.1 h _ hmem
  simp only [hrowid, Bool.false_eq_true, if_false] at hok
  cases hsupported : isSupportedLogicalType c.type with
  | ok => rfl
  | error e =>
    rw [hsupported] at hok
    cases hok

/-- The columns of one table share the number of rows, so that only the columns matter. -/
theorem gpuDecodeTable_eq_ok_iff {cols : List ColumnDecodeInput} {total : Nat}
    (htotal : ∀ col ∈ cols, col.totalRows = total) (hrows : total ≤ cudfSizeTypeMax) :
    gpuDecodeTable cols = .ok () ↔
      ∀ col ∈ cols, (do decodeColumnData col; decodeColumnValidity col) = .ok () := by
  cases cols with
  | nil => exact iff_of_true rfl nofun
  | cons first rest =>
    have hfirst := htotal first (by simp)
    have hrest : (rest.any fun col => col.totalRows != first.totalRows) = false := by
      simp only [any_eq_false, bne_iff_ne, ne_eq, not_not, hfirst]
      exact fun col hcol => htotal col (.tail _ hcol)
    rw [gpuDecodeTable, seq_eq_ok_iff, seq_eq_ok_iff, and_iff_right (refuseIf_eq_ok.2 hrest),
      and_iff_right (refuseIf_eq_ok.2 (by simpa [hfirst] using hrows)), forM_eq_ok_iff]

variable {columns : List ScanColumn}

/-- The columns of fixed width of a split are decoded if cuDF has their types and their bitmaps are
aligned. -/
theorem fixedWidthColumns_eq_ok_iff (hacc : ∀ rg ∈ split, rg.Accepted projectedCols projectedTypes)
    (hcolumns : ∀ c ∈ columns, c ∈ scanColumns projectedCols projectedTypes ∧
      isSupportedLogicalType c.type = .ok () ∧ isVarchar c.type = false ∧ DecodableColumn split c)
    (hrows : totalRows split ≤ cudfSizeTypeMax) :
    (∃ inputs, (columns.map fun c => (c, stagedColumn c.index {} split)).mapM fixedWidthInput =
        .ok inputs ∧ gpuDecodeTable inputs = .ok ()) ↔
      ∀ c ∈ columns, (c.type.id = .decimal → 4 < c.type.precision) ∧ AlignedColumn split c := by
  have hrows' : totalRows split < 2 ^ 32 := by
    rw [cudfSizeTypeMax] at hrows
    omega
  have hinput : ∀ c input, fixedWidthInput (c, stagedColumn c.index {} split) = .ok input ↔
      ∃ outType, siriusToCudfType c.type = .ok outType ∧ columnInput split c outType = input := by
    intro c input
    rw [fixedWidthInput, bind_eq_ok_iff]
    simp only [pure, Except.pure, Except.ok.injEq]
    rfl
  have hcolumn : ∀ c ∈ columns, ∀ outType, siriusToCudfType c.type = .ok outType →
      ((do decodeColumnData (columnInput split c outType)
           decodeColumnValidity (columnInput split c outType)) = .ok () ↔ AlignedColumn split c) := by
    intro c hc outType htype
    obtain ⟨hscan, hsupported, hvarchar, hdata⟩ := hcolumns c hc
    exact decodeColumn_eq_ok_iff hacc hscan hsupported hvarchar hrows' hdata htype
  have htable : ∀ inputs, List.Forall₂ (fun c input => ∃ outType,
        siriusToCudfType c.type = .ok outType ∧ columnInput split c outType = input) columns inputs →
      (gpuDecodeTable inputs = .ok () ↔ ∀ c ∈ columns, AlignedColumn split c) := by
    intro inputs hinputs
    have htotal : ∀ input ∈ inputs, input.totalRows = totalRows split := by
      intro input hmem
      obtain ⟨c, hc, outType, -, rfl⟩ := exists_of_mem_forall₂ hinputs hmem
      exact totalRows_input (stageable_of_accepted hacc (hcolumns c hc).1) hrows'
    rw [gpuDecodeTable_eq_ok_iff htotal hrows]
    constructor
    · intro h c hc
      obtain ⟨input, hmem, outType, htype, rfl⟩ := exists_of_mem_forall₂ hinputs.flip hc
      exact (hcolumn c hc outType htype).1 (h _ hmem)
    · intro h input hmem
      obtain ⟨c, hc, outType, htype, rfl⟩ := exists_of_mem_forall₂ hinputs hmem
      exact (hcolumn c hc outType htype).2 (h c hc)
  simp only [mapM_eq_ok_iff, forall₂_map_left_iff, hinput]
  constructor
  · rintro ⟨inputs, hinputs, hdecode⟩ c hc
    refine ⟨?_, (htable inputs hinputs).1 hdecode c hc⟩
    obtain ⟨-, hsupported, hvarchar, -⟩ := hcolumns c hc
    obtain ⟨_, -, outType, htype, -⟩ := exists_of_mem_forall₂ hinputs.flip hc
    exact (exists_siriusToCudfType_iff hsupported hvarchar).1 ⟨outType, htype⟩
  · intro h
    have hexists : ∃ inputs, columns.mapM (fun c =>
        fixedWidthInput (c, stagedColumn c.index {} split)) = .ok inputs := by
      refine exists_mapM_eq_ok_iff.2 fun c hc => ?_
      obtain ⟨-, hsupported, hvarchar, -⟩ := hcolumns c hc
      obtain ⟨outType, htype⟩ := (exists_siriusToCudfType_iff hsupported hvarchar).2 (h c hc).1
      exact ⟨_, (hinput c _).2 ⟨outType, htype, rfl⟩⟩
    simp only [mapM_eq_ok_iff, hinput] at hexists
    obtain ⟨inputs, hinputs⟩ := hexists
    exact ⟨inputs, hinputs, (htable inputs hinputs).2 fun c hc => (h c hc).2⟩

theorem stringColumns_eq_ok_iff {anyInlineNulls : Nat → Bool}
    (hacc : ∀ rg ∈ split, rg.Accepted projectedCols projectedTypes)
    (hcolumns : ∀ c ∈ columns, c ∈ scanColumns projectedCols projectedTypes ∧ isVarchar c.type =
      true ∧ DecodableColumn split c)
    (hrows : totalRows split ≤ cudfSizeTypeMax) (hcapped : Capped projectedTypes split) :
    (columns.map fun c => (c, stagedColumn c.index {} split)).forM (fun (c, staged) =>
        gpuDecodeStringsColumn (anyInlineNulls c.index) (stringInput staged)) = .ok () ↔
      ∀ c ∈ columns, AlignedColumn split c := by
  rw [forM_eq_ok_iff, forall_mem_map]
  refine forall₂_congr fun c hc => ?_
  obtain ⟨hscan, hvarchar, hdata⟩ := hcolumns c hc
  exact gpuDecodeStringsColumn_eq_ok_iff hacc hscan hvarchar hrows hcapped hdata

theorem mapM_stageScanColumn_eq_ok_iff
    (hcolumns : ∀ c ∈ columns, Stageable c.index split ∧ isSupportedLogicalType c.type = .ok ())
    {staged : List (ScanColumn × StagedColumn)} :
    columns.mapM (stageScanColumn split) = .ok staged ↔ (∀ c ∈ columns, DecodableColumn split c) ∧
      (columns.map fun c => (c, stagedColumn c.index {} split)) = staged := by
  refine mapM_eq_ok_iff_forall fun c hc result => ?_
  rw [stageScanColumn, bind_eq_ok_iff]
  simp only [stageColumn_eq_ok_iff (hcolumns c hc).1 (hcolumns c hc).2, and_assoc, exists_and_left,
    exists_eq_left', pure, Except.pure, Except.ok.injEq]

end Columns

/-! ## The decode of a split -/

/-- **The splits that can be decoded.** They have at most as many rows as a cuDF column, no DECIMAL of
at most four digits, only codecs that the decoder knows for the type of the column, and every bitmap
starts at a byte of the split. -/
structure Decodable (projectedCols : List ProjectedColumn) (projectedTypes : List LogicalType)
    (split : List RowGroupMetadata) : Prop where
  rows : totalRows split ≤ cudfSizeTypeMax
  decimals : ∀ c ∈ scanColumns projectedCols projectedTypes,
    c.type.id = .decimal → 4 < c.type.precision
  codecs : ∀ c ∈ scanColumns projectedCols projectedTypes, DecodableColumn split c
  aligned : ∀ c ∈ scanColumns projectedCols projectedTypes, AlignedColumn split c

section Split

variable {storage : DataTable} {projectedCols : List ProjectedColumn}
  {projectedTypes : List LogicalType} {split : List RowGroupMetadata} {anyInlineNulls : Nat → Bool}

theorem decode_eq_ok_iff_of_accepted (hne : split ≠ [])
    (hacc : ∀ rg ∈ split, rg.Accepted projectedCols projectedTypes)
    (hsupported : ∀ c ∈ scanColumns projectedCols projectedTypes,
      isSupportedLogicalType c.type = .ok ())
    (hcapped : Capped projectedTypes split) :
    decodeDuckdbNativeSplit projectedCols projectedTypes anyInlineNulls split = .ok () ↔
      Decodable projectedCols projectedTypes split := by
  set columns := scanColumns projectedCols projectedTypes
  have hstage := fun c (hc : c ∈ columns) => And.intro (stageable_of_accepted hacc hc) (hsupported c hc)
  -- The two kinds of columns are decoded by calls of their own.
  have hkinds : totalRows split ≤ cudfSizeTypeMax → (∀ c ∈ columns, DecodableColumn split c) →
      ((∃ inputs, ((columns.filter (!isVarchar ·.type)).map fun c =>
            (c, stagedColumn c.index {} split)).mapM fixedWidthInput = .ok inputs ∧
          gpuDecodeTable inputs = .ok ()) ∧
        ((columns.filter (isVarchar ·.type)).map fun c => (c, stagedColumn c.index {} split)).forM
          (fun (c, staged) => gpuDecodeStringsColumn (anyInlineNulls c.index) (stringInput staged)) =
            .ok () ↔
      (∀ c ∈ columns, c.type.id = .decimal → 4 < c.type.precision) ∧
        ∀ c ∈ columns, AlignedColumn split c) := by
    intro hrows hdata
    rw [fixedWidthColumns_eq_ok_iff hacc (fun c hc => ?_) hrows,
      stringColumns_eq_ok_iff hacc (fun c hc => ?_) hrows hcapped]
    · simp only [mem_filter, and_imp]
      constructor
      · rintro ⟨hfixed, hstrings⟩
        refine ⟨fun c hc hdecimal => ?_, fun c hc => ?_⟩
        · exact (hfixed c hc (by simp [isVarchar, hdecimal])).1 hdecimal
        · cases hvarchar : isVarchar c.type with
          | true => exact hstrings c hc hvarchar
          | false => exact (hfixed c hc (by simp [hvarchar])).2
      · rintro ⟨hdecimals, haligned⟩
        exact ⟨fun c hc _ => ⟨hdecimals c hc, haligned c hc⟩, fun c hc _ => haligned c hc⟩
    · obtain ⟨hc, hvarchar⟩ := mem_filter.1 hc
      exact ⟨hc, hvarchar, hdata c hc⟩
    · obtain ⟨hc, hvarchar⟩ := mem_filter.1 hc
      exact ⟨hc, hsupported c hc, by simpa using hvarchar, hdata c hc⟩
  rw [decodeDuckdbNativeSplit, if_neg (by simpa using hne), seq_eq_ok_iff, refuseIf_eq_ok,
    decide_eq_false_iff_not, Nat.not_lt, bind_eq_ok_iff]
  constructor
  · rintro ⟨hrows, staged, hmapM, hdecode⟩
    obtain ⟨hdata, rfl⟩ := (mapM_stageScanColumn_eq_ok_iff hstage).1 hmapM
    rw [filter_map, filter_map, bind_eq_ok_iff] at hdecode
    obtain ⟨inputs, hinputs, hdecode⟩ := hdecode
    rw [seq_eq_ok_iff] at hdecode
    obtain ⟨hdecimals, haligned⟩ := (hkinds hrows hdata).1 ⟨⟨inputs, hinputs, hdecode.1⟩, hdecode.2⟩
    exact ⟨hrows, hdecimals, hdata, haligned⟩
  · rintro ⟨hrows, hdecimals, hdata, haligned⟩
    obtain ⟨⟨inputs, hinputs, hfixed⟩, hstrings⟩ := (hkinds hrows hdata).2 ⟨hdecimals, haligned⟩
    refine ⟨hrows, _, (mapM_stageScanColumn_eq_ok_iff hstage).2 ⟨hdata, rfl⟩, ?_⟩
    rw [filter_map, filter_map, bind_eq_ok_iff]
    exact ⟨inputs, hinputs, seq_eq_ok_iff.2 ⟨hfixed, hstrings⟩⟩

section

variable {rowGroups : List RowGroupMetadata} {approximateBatchSize : Nat} (htiled : storage.Tiled)
  (hviable : walkDuckdbNativeMetadata storage projectedCols projectedTypes = .ok rowGroups)
  (hsplit : split ∈ partitionRowGroupsIntoBatches approximateBatchSize projectedTypes rowGroups)

include htiled hviable hsplit

theorem accepted_of_split : split ≠ [] ∧ split ⊆ rowGroups ∧ Capped projectedTypes split ∧
    ∀ rg ∈ split, rg.Accepted projectedCols projectedTypes := by
  have hacc : ∀ rg ∈ rowGroups, rg.Accepted projectedCols projectedTypes :=
    fun _ hrg => accepted_of_walk hviable htiled hrg
  obtain ⟨hne, hsubset, hcapped⟩ := mem_partitionRowGroupsIntoBatches hsplit
    (fun rg hrg => (hacc rg hrg).length_bytes) fun rg hrg => (hacc rg hrg).bytes_lt
  exact ⟨hne, hsubset, hcapped, fun rg hrg => hacc rg (hsubset hrg)⟩

/-- **Which splits of a viable table are decoded**, for every projection and every batch size. -/
theorem decodeDuckdbNativeSplit_eq_ok_iff :
    decodeDuckdbNativeSplit projectedCols projectedTypes anyInlineNulls split = .ok () ↔
      Decodable projectedCols projectedTypes split := by
  obtain ⟨hne, -, hcapped, hacc⟩ := accepted_of_split htiled hviable hsplit
  obtain ⟨-, htypes, -⟩ := walk_eq_ok hviable
  exact decode_eq_ok_iff_of_accepted hne hacc
    (fun c hc => isSupportedLogicalType_of_checkTypes htypes hc) hcapped

end

/-! ## Viable tables that are not decoded -/

/-- A column with one segment of data and one of validity. -/
def segmentPair (rows : Nat) (data validity : String) : List StorageSegment :=
  [{ columnPath := "[0]", segmentStart := 0, segmentCount := rows, compressionType := data },
    { columnPath := "[0, 0]", segmentStart := 0, segmentCount := rows, compressionType := validity }]

theorem tiledColumn_segmentPair (rows : Nat) (data validity : String) :
    TiledColumn rows (segmentPair rows data validity) := by
  have htiles : ∀ seg : StorageSegment, seg.segmentStart = 0 → seg.segmentCount = rows →
      Tiles rows [seg] := fun seg hstart hcount =>
    ⟨[seg], .refl _, hstart, by rw [hcount, Nat.zero_add]; rfl⟩
  have hdata : isValidityPath "[0]" = false := by decide
  have hvalidity : isValidityPath "[0, 0]" = true := by decide
  constructor
  · simpa [segmentPair, hdata, hvalidity] using htiles _ rfl rfl
  · simpa [segmentPair, hdata, hvalidity] using htiles _ rfl rfl

/-- A column of type DOUBLE with ALP, which the walker supports and the stager does not. -/
def alpTable : DataTable where
  partitionStats := [⟨some 0, 8⟩]
  rowGroups := [some fun _ => segmentPair 8 "ALP" "Empty Validity"]

/-- A column of type BIGINT with NULLs in the second row group, behind a row group of `rows` rows. -/
def nullsTable (rows : Nat) : DataTable where
  partitionStats := [⟨some 0, rows⟩, ⟨some rows, 8⟩]
  rowGroups := [some fun _ => segmentPair rows "BitPacking" "Empty Validity",
    some fun _ => segmentPair 8 "BitPacking" "Uncompressed"]

theorem alpTable_tiled : alpTable.Tiled := by
  intro rg columnData hrg
  match rg with
  | 0 =>
    cases hrg
    exact ⟨8, by rintro _ ⟨⟩; rfl, fun _ => tiledColumn_segmentPair ..⟩
  | _ + 1 => cases hrg

theorem nullsTable_tiled (rows : Nat) : (nullsTable rows).Tiled := by
  intro rg columnData hrg
  match rg with
  | 0 =>
    cases hrg
    exact ⟨rows, by rintro _ ⟨⟩; rfl, fun _ => tiledColumn_segmentPair ..⟩
  | 1 =>
    cases hrg
    exact ⟨8, by rintro _ ⟨⟩; rfl, fun _ => tiledColumn_segmentPair ..⟩
  | _ + 2 => cases hrg

theorem decode_nullsTable_sixteen : ∃ rowGroups,
    walkDuckdbNativeMetadata (nullsTable 16) [⟨0, false⟩] [.make .bigint] = .ok rowGroups ∧
      rowGroups ∈ partitionRowGroupsIntoBatches 0 [.make .bigint] rowGroups ∧
      Decodable [⟨0, false⟩] [.make .bigint] rowGroups := by
  obtain ⟨rowGroups, hwalk, hsplit, hdecode⟩ : ∃ rowGroups,
      walkDuckdbNativeMetadata (nullsTable 16) [⟨0, false⟩] [.make .bigint] = .ok rowGroups ∧
      rowGroups ∈ partitionRowGroupsIntoBatches 0 [.make .bigint] rowGroups ∧
      decodeDuckdbNativeSplit [⟨0, false⟩] [.make .bigint] (fun _ => false) rowGroups = .ok () :=
    ⟨_, rfl, mem_singleton_self _, rfl⟩
  exact ⟨rowGroups, hwalk, hsplit,
    (decodeDuckdbNativeSplit_eq_ok_iff (nullsTable_tiled 16) hwalk hsplit).1 hdecode⟩

/-- Both tables are viable, and both decodes throw: the first in the stager, and the second, with
twelve rows before the NULLs, in the dispatch of the validity. -/
theorem viable_not_decoded :
    (alpTable.Tiled ∧ ∃ rowGroups,
      walkDuckdbNativeMetadata alpTable [⟨0, false⟩] [.make .double] = .ok rowGroups ∧
      rowGroups ∈ partitionRowGroupsIntoBatches 0 [.make .double] rowGroups ∧
      decodeDuckdbNativeSplit [⟨0, false⟩] [.make .double] (fun _ => false) rowGroups =
        .error "[sirius_gpu_duckdb_native_scan] unsupported: fixed-width data codec 10 (column 0)") ∧
    ((nullsTable 12).Tiled ∧ ∃ rowGroups,
      walkDuckdbNativeMetadata (nullsTable 12) [⟨0, false⟩] [.make .bigint] = .ok rowGroups ∧
      rowGroups ∈ partitionRowGroupsIntoBatches 0 [.make .bigint] rowGroups ∧
      decodeDuckdbNativeSplit [⟨0, false⟩] [.make .bigint] (fun _ => false) rowGroups =
        .error "gpu_decode_table: validity row_offset (12) not byte-aligned") :=
  ⟨⟨alpTable_tiled, _, rfl, mem_singleton_self _, rfl⟩,
    nullsTable_tiled 12, _, rfl, mem_singleton_self _, rfl⟩

end Split

end Sirius.Native
