import Sirius.Native.Metadata

/-!
# Splits and their decode

`partition_row_groups_into_batches` cuts the row groups of a viable table into the splits of the scan.
`decode_duckdb_native_split` stages the segments of a split column by column, with a row cursor that
runs over the row groups, groups consecutive segments of one codec into runs and hands them to the GPU
decoders. Every step checks what it was given and throws if it cannot go on; the decoded values are
left out, so that a decode returns nothing or the message of the exception.

The bytes of a segment are not part of the model, nor are the checks on them.
-/

namespace Sirius.Native

open Expression (LogicalType DataType getCudfType)
open Lib

/-! ## Splits -/

/-- The state of the loop over the row groups: the batches that are closed and the current one. -/
structure Batching where
  batches : List (List RowGroupMetadata) := []
  current : List RowGroupMetadata := []
  batchBytes : Nat := 0
  colBytes : List Nat

section Splits

variable (approximateBatchSize : Nat) (projectedTypes : List LogicalType)

def Batching.init : Batching where
  colBytes := List.replicate projectedTypes.length 0

def Batching.close (s : Batching) : Batching :=
  { Batching.init projectedTypes with batches := s.batches ++ [s.current] }

/-- With the row group some string column would reach the limit of cuDF. -/
def Batching.wouldExceedVarchar (s : Batching) (rg : RowGroupMetadata) : Bool :=
  (projectedTypes.zip (List.zipWith (· + ·) s.colBytes rg.varcharBytesPerCol)).any
    fun (type, bytes) => isVarchar type && cudfInt32StringsThreshold ≤ bytes

def Batching.wouldExceedTotal (s : Batching) (rg : RowGroupMetadata) : Bool :=
  0 < approximateBatchSize && approximateBatchSize < s.batchBytes + rg.decodedBytesBudget

def Batching.append (s : Batching) (rg : RowGroupMetadata) : Batching :=
  { s with
    current := s.current ++ [rg]
    batchBytes := s.batchBytes + rg.decodedBytesBudget
    colBytes := List.zipWith (· + ·) s.colBytes rg.varcharBytesPerCol }

def Batching.add (s : Batching) (rg : RowGroupMetadata) : Batching :=
  if !s.current.isEmpty &&
      (s.wouldExceedTotal approximateBatchSize rg || s.wouldExceedVarchar projectedTypes rg) then
    (s.close projectedTypes).append rg
  else s.append rg

def partitionRowGroupsIntoBatches (rowGroups : List RowGroupMetadata) :
    List (List RowGroupMetadata) :=
  if rowGroups.isEmpty then []
  else if approximateBatchSize = 0 ∧ projectedTypes.any isVarchar = false then [rowGroups]
  else
    let s := rowGroups.foldl (Batching.add approximateBatchSize projectedTypes)
      (Batching.init projectedTypes)
    if s.current.isEmpty then s.batches else (s.close projectedTypes).batches

end Splits

/-! ## Staging -/

def u32 (n : Nat) : Nat := n % 2 ^ 32

/-- `std::numeric_limits<cudf::size_type>::max()` -/
def cudfSizeTypeMax : Nat := 2 ^ 31 - 1

def unsupported (what : String) : String :=
  "[sirius_gpu_duckdb_native_scan] unsupported: " ++ what

def isConstantOrEmptyValidity : CompressionType → Bool
  | .constant | .empty => true
  | _ => false

def isSupportedFixedWidthCodec : CompressionType → Bool
  | .uncompressed | .constant | .rle | .bitpacking => true
  | _ => false

def isSupportedVarcharCodec : CompressionType → Bool
  | .uncompressed | .dictionary | .fsst | .dictFsst => true
  | _ => false

def isValidityBitmap : CompressionType → Bool
  | .uncompressed | .roaring => true
  | _ => false

def columnHasRealNulls (col : ColumnMetadata) : Bool :=
  col.validitySegments.any fun v => isValidityBitmap v.compression

structure StagedSegment where
  rowOffset : Nat
  rowCount : Nat
  maxStringLength : Nat
  compression : CompressionType

structure StagedColumn where
  data : List StagedSegment := []
  validity : List StagedSegment := []
  hasNulls : Bool := false
  totalRows : Nat := 0

def stageData (rowCursor : Nat) (seg : SegmentDescriptor) : StagedSegment where
  rowOffset := u32 (rowCursor + u32 seg.segmentStart)
  rowCount := u32 seg.segmentCount
  maxStringLength := seg.maxStringLength.getD 0
  compression := seg.compression

/-- A validity segment is shipped as a plain bitmap, whatever its codec was. -/
def stageValidity (rowCursor : Nat) (seg : SegmentDescriptor) : StagedSegment :=
  { stageData rowCursor seg with maxStringLength := 0, compression := .uncompressed }

/-- `extract_constant_bytes`: the physical types of a constant that can be read from statistics. -/
def isConstantExtractable (type : LogicalType) : Bool :=
  match type.id with
  | .hugeint | .uhugeint | .varchar | .struct | .list | .sqlNull | .invalid => false
  | .decimal => type.precision ≤ 18
  | _ => true

def checkFixedWidthSegment (type : LogicalType) (columnId : Nat) (seg : SegmentDescriptor) :
    Except String Unit := do
  refuseIf (!isSupportedFixedWidthCodec seg.compression)
    (unsupported ("fixed-width data codec " ++ toString seg.compression.ctorIdx ++ " (column " ++
      toString columnId ++ ")"))
  refuseIf (seg.compression == .constant && !isConstantExtractable type)
    (unsupported ("CONSTANT extraction for physical type of " ++ typeToString type))

def checkVarcharSegment (columnId : Nat) (seg : SegmentDescriptor) : Except String Unit := do
  refuseIf (!isSupportedVarcharCodec seg.compression)
    (unsupported ("varchar data codec " ++ toString seg.compression.ctorIdx ++ " (column " ++
      toString columnId ++ ")"))
  refuseIf (seg.blockId < 0)
    (unsupported ("varchar CONSTANT segment (column " ++ toString columnId ++ ")"))

def checkValiditySegment (column : String) (columnId : Nat) (seg : SegmentDescriptor) :
    Except String Unit :=
  refuseIf (!isValidityBitmap seg.compression)
    (unsupported ("validity codec " ++ toString seg.compression.ctorIdx ++ " (" ++ column ++ " " ++
      toString columnId ++ ")"))

def ColumnMetadata.stagedValidity (col : ColumnMetadata) : List SegmentDescriptor :=
  col.validitySegments.filter fun v => !isConstantOrEmptyValidity v.compression

/-- The segments of the next row group are added; the row cursor is the number of rows so far. -/
def StagedColumn.add (out : StagedColumn) (rowCount : Nat) (col : ColumnMetadata) : StagedColumn where
  data := out.data ++ col.dataSegments.map (stageData out.totalRows)
  validity := out.validity ++ col.stagedValidity.map (stageValidity out.totalRows)
  hasNulls := out.hasNulls || columnHasRealNulls col
  totalRows := u32 (out.totalRows + u32 rowCount)

def columnAt (ci : Nat) (rg : RowGroupMetadata) : Except String ColumnMetadata :=
  match rg.columns[ci]? with
  | some col => .ok col
  | none => .error "vector::_M_range_check"

section Staging

variable (checkData : Nat → SegmentDescriptor → Except String Unit) (column : String)

def stageRowGroup (ci : Nat) (out : StagedColumn) (rg : RowGroupMetadata) :
    Except String StagedColumn := do
  let col ← columnAt ci rg
  col.dataSegments.forM (checkData col.columnId)
  col.stagedValidity.forM (checkValiditySegment column col.columnId)
  return out.add rg.rowCount col

/-- Both kinds of columns are staged in the same way, up to the checks on a data segment. -/
def stageOneColumn (rowGroups : List RowGroupMetadata) (ci : Nat) : Except String StagedColumn :=
  rowGroups.foldlM (stageRowGroup checkData column ci) {}

end Staging

def stageOneFixedWidthColumn (rowGroups : List RowGroupMetadata) (ci : Nat) (type : LogicalType) :
    Except String StagedColumn :=
  stageOneColumn (checkFixedWidthSegment type) "column" rowGroups ci

def stageOneVarcharColumn (rowGroups : List RowGroupMetadata) (ci : Nat) :
    Except String StagedColumn :=
  stageOneColumn checkVarcharSegment "varchar column" rowGroups ci

/-! ## Runs -/

structure SegmentDesc where
  rowOffset : Nat
  rowCount : Nat

structure StringSegmentDesc extends SegmentDesc where
  maxStringLength : Nat

/-- `gpu_codec_run` and `gpu_string_codec_run`: consecutive segments with one codec. -/
structure CodecRun (D : Type) where
  codec : CompressionType
  segments : List D

section Runs

variable {D : Type} (toDesc : StagedSegment → D)

/-- The segment joins the last run if the codec is the same, or starts a new run. -/
def addToRuns (runs : List (CodecRun D)) (s : StagedSegment) : List (CodecRun D) :=
  match runs.getLast? with
  | none => [⟨s.compression, [toDesc s]⟩]
  | some run =>
    if s.compression = run.codec then
      runs.dropLast ++ [{ run with segments := run.segments ++ [toDesc s] }]
    else runs ++ [⟨s.compression, [toDesc s]⟩]

def fillRuns (staged : List StagedSegment) : List (CodecRun D) := staged.foldl (addToRuns toDesc) []

end Runs

def StagedSegment.desc (s : StagedSegment) : SegmentDesc := ⟨s.rowOffset, s.rowCount⟩

def StagedSegment.stringDesc (s : StagedSegment) : StringSegmentDesc := ⟨s.desc, s.maxStringLength⟩

def fillFixedWidthRuns : List StagedSegment → List (CodecRun SegmentDesc) :=
  fillRuns StagedSegment.desc

def fillStringRuns : List StagedSegment → List (CodecRun StringSegmentDesc) :=
  fillRuns StagedSegment.stringDesc

/-! ## Fixed-width columns on the GPU -/

structure ColumnDecodeInput where
  outType : DataType
  totalRows : Nat
  hasNulls : Bool
  data : List (CodecRun SegmentDesc)
  validity : List (CodecRun SegmentDesc)

/-- `cudf::size_of`, for the types of fixed width. -/
def cudfSizeOf (type : DataType) : Nat :=
  match type.id with
  | .int8 | .uint8 | .bool8 => 1
  | .int16 | .uint16 => 2
  | .int32 | .uint32 | .float32 | .timestampDays | .decimal32 => 4
  | .int64 | .uint64 | .float64 | .decimal64 => 8
  | .timestampSeconds | .timestampMilliseconds | .timestampMicroseconds | .timestampNanoseconds => 8
  | .decimal128 => 16
  | .string | .list | .struct => 0

def validateSegmentBounds (runs : List (CodecRun SegmentDesc)) (totalRows : Nat) (what : String) :
    Except String Unit :=
  runs.forM fun run => run.segments.forM fun seg =>
    refuseIf (totalRows < seg.rowOffset + seg.rowCount)
      ("gpu_decode_table: " ++ what ++ " segment row_offset (" ++ toString seg.rowOffset ++
        ") + row_count (" ++ toString seg.rowCount ++ ") > total_rows (" ++ toString totalRows ++ ")")

/-- `dispatch_data_run`, with the check that each codec makes on the size of a value. -/
def dispatchDataRun (typeSize : Nat) (run : CodecRun SegmentDesc) : Except String Unit :=
  match run.codec with
  | .uncompressed | .constant => .ok ()
  | .rle => refuseIf (!([1, 2, 4, 8].contains typeSize))
      ("[gpu_decode_table]: viability invariant violated — RLE type_size " ++ toString typeSize)
  | .bitpacking => refuseIf (!([1, 2, 4, 8].contains typeSize))
      ("gpu_decode_table: viability invariant violated — BITPACKING type_size " ++ toString typeSize)
  | .alp => refuseIf (!([4, 8].contains typeSize))
      ("[gpu_decode_alp]: type_size " ++ toString typeSize)
  | .alprd => refuseIf (!([4, 8].contains typeSize))
      ("[gpu_decode_alprd]: type_size " ++ toString typeSize)
  | codec => .error ("gpu_decode_table: viability invariant violated — data codec " ++
      toString codec.ctorIdx ++ " not implemented")

/-- The validity of a run is copied byte by byte, which needs every segment to start at a byte. -/
def copyValidityRun (function : String) (run : CodecRun SegmentDesc) : Except String Unit := do
  refuseIf (run.codec != .uncompressed)
    (function ++ ": viability invariant violated — validity codec " ++ toString run.codec.ctorIdx ++
      " not implemented")
  run.segments.forM fun seg => refuseIf (seg.rowCount != 0 && seg.rowOffset % 8 != 0)
    (function ++ ": validity row_offset (" ++ toString seg.rowOffset ++ ") not byte-aligned")

def dispatchValidityRun : CodecRun SegmentDesc → Except String Unit :=
  copyValidityRun "gpu_decode_table"

def decodeColumnData (col : ColumnDecodeInput) : Except String Unit := do
  refuseIf (!col.outType.isFixedWidth)
    "gpu_decode_table: viability invariant violated — non-fixed-width type"
  validateSegmentBounds col.data col.totalRows "data"
  col.data.forM (dispatchDataRun (cudfSizeOf col.outType))

def decodeColumnValidity (col : ColumnDecodeInput) : Except String Unit :=
  if !col.hasNulls || col.totalRows == 0 || col.validity.isEmpty then .ok ()
  else do
    validateSegmentBounds col.validity col.totalRows "validity"
    col.validity.forM dispatchValidityRun

def gpuDecodeTable (cols : List ColumnDecodeInput) : Except String Unit :=
  match cols with
  | [] => .ok ()
  | first :: rest => do
    refuseIf (rest.any (·.totalRows != first.totalRows))
      "gpu_decode_table: all columns must share the same total_rows"
    refuseIf (cudfSizeTypeMax < first.totalRows)
      ("gpu_decode_table: total_rows (" ++ toString first.totalRows ++ ") > cudf::size_type max")
    (first :: rest).forM fun col => do
      decodeColumnData col
      decodeColumnValidity col

/-! ## Strings on the GPU -/

structure StringColumnDecodeInput where
  totalRows : Nat
  hasNulls : Bool
  data : List (CodecRun StringSegmentDesc)
  validity : List (CodecRun SegmentDesc)

def dispatchStringRun (run : CodecRun StringSegmentDesc) : Except String Unit :=
  refuseIf (!isSupportedVarcharCodec run.codec)
    ("gpu_decode_strings_column: viability invariant violated — data codec " ++
      toString run.codec.ctorIdx ++ " not implemented")

def overlayValidityRun : CodecRun SegmentDesc → Except String Unit :=
  copyValidityRun "gpu_decode_strings_column"

def StringColumnDecodeInput.segments (col : StringColumnDecodeInput) : List StringSegmentDesc :=
  col.data.flatMap (·.segments)

def StringColumnDecodeInput.cumCharsUpper (col : StringColumnDecodeInput) : Nat :=
  (col.segments.map fun seg => seg.rowCount * seg.maxStringLength).sum

/-- `needs_exact_total`: some segment does not know the length of its strings. -/
def StringColumnDecodeInput.needsExactTotal (col : StringColumnDecodeInput) : Bool :=
  col.segments.any (·.maxStringLength == 0)

/-- `gpu_decode_strings_column`. Whether a DICT_FSST segment has NULLs of its own is read from the
bytes of the column. -/
def gpuDecodeStringsColumn (anyInlineNulls : Bool) (col : StringColumnDecodeInput) :
    Except String Unit :=
  if col.totalRows = 0 then .ok ()
  else do
    refuseIf (cudfSizeTypeMax < col.totalRows)
      ("gpu_decode_strings_column: total_rows (" ++ toString col.totalRows ++
        ") > cudf::size_type max")
    col.data.forM dispatchStringRun
    refuseIf (!col.needsExactTotal && cudfSizeTypeMax < col.cumCharsUpper)
      ("gpu_decode_strings_column: estimated total_chars (" ++ toString col.cumCharsUpper ++
        ") exceeds int32 max")
    if col.hasNulls || anyInlineNulls then col.validity.forM overlayValidityRun else .ok ()

/-! ## The decode of a split -/

structure ScanColumn where
  type : LogicalType
  index : Nat

def scanColumns (projectedCols : List ProjectedColumn) (projectedTypes : List LogicalType) :
    List ScanColumn :=
  ((projectedCols.zip projectedTypes).zipIdx.filter fun ((pc, _), _) => !pc.isRowid).map
    fun ((_, type), ci) => ⟨type, ci⟩

def stageColumn (rowGroups : List RowGroupMetadata) (c : ScanColumn) : Except String StagedColumn :=
  if isVarchar c.type then stageOneVarcharColumn rowGroups c.index
  else stageOneFixedWidthColumn rowGroups c.index c.type

def stageScanColumn (rowGroups : List RowGroupMetadata) (c : ScanColumn) :
    Except String (ScanColumn × StagedColumn) := do
  let staged ← stageColumn rowGroups c
  return (c, staged)

/-- `sirius_to_cudf_type`. `duckdb::GetCudfType` has the same table as `getCudfType`, with messages of
its own. -/
def siriusToCudfType (type : LogicalType) : Except String DataType := getCudfType type

def fixedWidthInput : ScanColumn × StagedColumn → Except String ColumnDecodeInput
  | (c, staged) => do
    let outType ← siriusToCudfType c.type
    return {
      outType
      totalRows := u32 staged.totalRows
      hasNulls := staged.hasNulls
      data := fillFixedWidthRuns staged.data
      validity := fillFixedWidthRuns staged.validity }

def stringInput (staged : StagedColumn) : StringColumnDecodeInput where
  totalRows := u32 staged.totalRows
  hasNulls := staged.hasNulls
  data := fillStringRuns staged.data
  validity := fillFixedWidthRuns staged.validity

def totalRows (split : List RowGroupMetadata) : Nat := (split.map (·.rowCount)).sum

/-- **`decode_duckdb_native_split`**, for a split with the given row groups. The columns of fixed width
are decoded in one call, every string column in a call of its own. -/
def decodeDuckdbNativeSplit (projectedCols : List ProjectedColumn)
    (projectedTypes : List LogicalType) (anyInlineNulls : Nat → Bool)
    (split : List RowGroupMetadata) : Except String Unit :=
  if split.isEmpty then .ok ()
  else do
    refuseIf (cudfSizeTypeMax < totalRows split)
      ("[sirius_gpu_duckdb_native_scan] split rows (" ++ toString (totalRows split) ++
        ") exceed cudf::size_type max")
    let staged ← (scanColumns projectedCols projectedTypes).mapM (stageScanColumn split)
    let fixedWidth ← (staged.filter (!isVarchar ·.1.type)).mapM fixedWidthInput
    gpuDecodeTable fixedWidth
    (staged.filter (isVarchar ·.1.type)).forM fun (c, staged) =>
      gpuDecodeStringsColumn (anyInlineNulls c.index) (stringInput staged)

end Sirius.Native
