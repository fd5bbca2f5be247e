import Mathlib.Data.List.DropRight
import Mathlib.Data.List.Sort
import Sirius.Expression.Node
import Sirius.Lib.Fallible

/-!
# The metadata of a native DuckDB scan

`walk_duckdb_native_metadata` collects the segments of the projected columns of a table, row group by
row group, and refuses a table that the GPU cannot decode. What it returns is read by
`duckdb_native_split_provider`, which packs the row groups into splits.

Row numbers and byte counts are `size_t` in the source and natural numbers here. The position of a
segment in the file (`block_offset`, `additional_blocks`, `bytes_size`) is left out.
-/

namespace Sirius.Native

open Expression (LogicalType)
open Lib

/-! ## Types and codecs -/

/-- `duckdb::CompressionType`, in its order; `count` is the sentinel at the end. -/
inductive CompressionType where
  | auto | uncompressed | constant | rle | dictionary | pforDelta | bitpacking | fsst | chimp | patas
  | alp | alprd | zstd | roaring | empty | dictFsst | count
  deriving DecidableEq, Repr

def parseCompressionString (s : String) : CompressionType :=
  match s with
  | "Auto" => .auto
  | "Uncompressed" => .uncompressed
  | "Constant" => .constant
  | "RLE" => .rle
  | "Dictionary" => .dictionary
  | "PFOR" => .pforDelta
  | "BitPacking" => .bitpacking
  | "FSST" => .fsst
  | "Chimp" => .chimp
  | "Patas" => .patas
  | "ZSTD" => .zstd
  | "ALP" => .alp
  | "ALPRD" => .alprd
  | "Roaring" => .roaring
  | "DICT_FSST" => .dictFsst
  | "Empty Validity" => .empty
  | _ => .count

def isSupportedDataCompression : CompressionType → Bool
  | .uncompressed | .constant | .rle | .dictionary | .bitpacking | .fsst | .dictFsst | .alp
  | .alprd => true
  | _ => false

def isSupportedValidityCompression : CompressionType → Bool
  | .uncompressed | .empty | .constant | .roaring => true
  | _ => false

/-- `is_validity_path`: the path of a data segment is `[col]`, of a validity segment `[col, 0]`. -/
def isValidityPath (columnPath : String) : Bool := columnPath.toList.contains ','

def typeToString (type : LogicalType) : String :=
  match type.id with
  | .invalid => "INVALID"
  | .sqlNull => "NULL"
  | .boolean => "BOOLEAN"
  | .tinyint => "TINYINT"
  | .smallint => "SMALLINT"
  | .integer => "INTEGER"
  | .bigint => "BIGINT"
  | .hugeint => "HUGEINT"
  | .utinyint => "UTINYINT"
  | .usmallint => "USMALLINT"
  | .uinteger => "UINTEGER"
  | .ubigint => "UBIGINT"
  | .uhugeint => "UHUGEINT"
  | .float => "FLOAT"
  | .double => "DOUBLE"
  | .date => "DATE"
  | .timestampSec => "TIMESTAMP_S"
  | .timestampMs => "TIMESTAMP_MS"
  | .timestamp => "TIMESTAMP"
  | .timestampNs => "TIMESTAMP_NS"
  | .varchar => "VARCHAR"
  | .struct => "STRUCT"
  | .list => "LIST"
  | .decimal => "DECIMAL(" ++ toString type.precision ++ "," ++ toString type.scale ++ ")"

def isVarchar (type : LogicalType) : Bool := type.id == .varchar

/-- `logical_type::fixed_width_byte_size`. It throws for nested types and sentinels, which the walker
has refused before it asks; they have size `0` here. -/
def fixedWidthByteSize (type : LogicalType) : Nat :=
  match type.id with
  | .boolean | .tinyint | .utinyint => 1
  | .smallint | .usmallint => 2
  | .integer | .uinteger | .float | .date => 4
  | .bigint | .ubigint | .hugeint | .uhugeint | .double => 8
  | .timestampSec | .timestampMs | .timestamp | .timestampNs => 8
  | .decimal => if type.precision ≤ 9 then 4 else if type.precision ≤ 18 then 8 else 16
  | .varchar | .list | .struct | .sqlNull | .invalid => 0

/-- `is_supported_logical_type`, with the reason of a refusal. -/
def isSupportedLogicalType (type : LogicalType) : Except String Unit :=
  match type.id with
  | .hugeint | .uhugeint =>
    .error ("type " ++ typeToString type ++ " has 128-bit storage; sirius decode lacks it")
  | .struct | .list =>
    .error ("type " ++ typeToString type ++ " is a nested type; sirius decode does not support it")
  | .invalid | .sqlNull =>
    .error ("type " ++ typeToString type ++ " is a sentinel; not a valid scan column type")
  | .decimal =>
    if 18 < type.precision then
      .error ("type " ++ typeToString type ++ " has DECIMAL128 storage; sirius decode lacks it")
    else .ok ()
  | _ => .ok ()

/-! ## Max string length -/

/-- What follows the first occurrence of `needle`. -/
def findAfter (needle : List Char) : List Char → Option (List Char)
  | [] => if needle.isEmpty then some [] else none
  | c :: cs =>
    if needle.isPrefixOf (c :: cs) then some ((c :: cs).drop needle.length)
    else findAfter needle cs

/-- `std::from_chars` for a `uint32_t`: the leading digits, unless there is none or the number is out
of range. -/
def fromChars (cs : List Char) : Option Nat :=
  let digits := cs.takeWhile Char.isDigit
  let value := digits.foldl (fun n d => 10 * n + (d.toNat - '0'.toNat)) 0
  if digits.isEmpty || 2 ^ 32 ≤ value then none else some value

def parseSegmentMaxStringLength (blob : String) : Option Nat :=
  (findAfter "Max String Length: ".toList blob.toList).bind fromChars

/-! ## The table -/

/-- What `GetColumnSegmentInfo` reports of one segment of a column. -/
structure StorageSegment where
  columnPath : String
  segmentStart : Nat
  segmentCount : Nat
  compressionType : String
  segmentStats : String := ""
  blockId : Int := 0
  deriving DecidableEq

structure ColumnSegmentInfo extends StorageSegment where
  rowGroupIndex : Nat
  columnId : Nat

def StorageSegment.info (seg : StorageSegment) (rowGroupIndex columnId : Nat) : ColumnSegmentInfo :=
  { seg with rowGroupIndex, columnId }

/-- `duckdb::PartitionStatistics`; the start of the rows may be invalid. -/
structure PartitionStatistics where
  rowStart : Option Nat
  count : Nat

/-- The storage of a table: the statistics of `GetPartitionStats`, and for each row group that
`GetRowGroup` returns, the segments of its columns by the primary index of the column. -/
structure DataTable where
  partitionStats : List PartitionStatistics
  rowGroups : List (Option (Nat → List StorageSegment))

structure ProjectedColumn where
  storageIdx : Nat
  isRowid : Bool := false

structure SegmentDescriptor where
  blockId : Int
  segmentStart : Nat
  segmentCount : Nat
  compression : CompressionType
  maxStringLength : Option Nat := none

structure ColumnMetadata where
  columnId : Nat
  isRowid : Bool := false
  dataSegments : List SegmentDescriptor := []
  validitySegments : List SegmentDescriptor := []

structure RowGroupMetadata where
  rowGroupIndex : Nat
  rowGroupStart : Nat := 0
  rowCount : Nat := 0
  columns : List ColumnMetadata
  decodedBytesBudget : Nat := 0
  varcharBytesPerCol : List Nat := []

/-! ## The walk -/

def refuseIf (condition : Bool) (reason : String) : Except String Unit :=
  if condition then .error reason else .ok ()

@[simp]
theorem refuseIf_eq_ok {condition : Bool} {reason : String} :
    refuseIf condition reason = .ok () ↔ condition = false := by
  cases condition <;> simp [refuseIf]

def cudfInt32StringsThreshold : Nat := 2 ^ 31 - 1

def invalidColumnId : Nat := 2 ^ 64 - 1

/-- The characters of the strings of a column can take at most this much space. -/
def ColumnMetadata.charsUpperBound (col : ColumnMetadata) : Nat :=
  (col.dataSegments.map fun seg => seg.segmentCount * seg.maxStringLength.getD 0).sum

section Walk

variable (storage : DataTable) (projectedCols : List ProjectedColumn)
  (projectedTypes : List LogicalType)

/-- Every projected column that is not the row id has a supported type. -/
def checkTypes : Except String Unit :=
  (projectedCols.zip projectedTypes).forM fun (pc, type) =>
    if pc.isRowid then .ok ()
    else (isSupportedLogicalType type).mapError fun reason =>
      "column " ++ toString pc.storageIdx ++ ": " ++ reason

/-- The starts of the row groups; the loop stops at the first that is not valid. -/
def rowGroupStarts : Except String (List Nat) :=
  storage.partitionStats.zipIdx.mapM fun (ps, i) =>
    match ps.rowStart with
    | some start => .ok start
    | none => .error ("partition_stats[" ++ toString i ++
        "].row_start is not valid; cannot synthesize rowids")

def columnSegments : List ColumnSegmentInfo :=
  storage.rowGroups.zipIdx.flatMap fun (rowGroup, rg) =>
    match rowGroup with
    | none => []
    | some columnData => (projectedCols.filter (!·.isRowid)).flatMap fun pc =>
        (columnData pc.storageIdx).map (·.info rg pc.storageIdx)

def projectedLookup (columnId : Nat) : Option Nat :=
  projectedCols.findIdx? fun pc => !pc.isRowid && pc.storageIdx == columnId

def isVarcharColumn (ci : Nat) : Bool := projectedTypes[ci]?.any isVarchar

def emptyRowGroup (handles : List Nat) (rg : Nat) : RowGroupMetadata where
  rowGroupIndex := rg
  rowGroupStart := handles.getD rg 0
  columns := projectedCols.map fun pc =>
    { columnId := if pc.isRowid then invalidColumnId else pc.storageIdx, isRowid := pc.isRowid }

/-- The number of row groups that are set up: up to the last with a segment. -/
def numRowGroups (handles : List Nat) (segments : List ColumnSegmentInfo) : Nat :=
  if segments.isEmpty then handles.length
  else (segments.map (·.rowGroupIndex)).foldl max 0 + 1

/-- The compression of a segment is one that the list it belongs to supports. -/
def checkCompression (seg : ColumnSegmentInfo) : Except String Unit :=
  let compression := parseCompressionString seg.compressionType
  let validitySeg := isValidityPath seg.columnPath
  refuseIf (!if validitySeg then isSupportedValidityCompression compression
      else isSupportedDataCompression compression)
    ((if validitySeg then "validity" else "data") ++ " segment on column " ++
      toString seg.columnId ++ " row group " ++ toString seg.rowGroupIndex ++
      ": unsupported compression \"" ++ seg.compressionType ++ "\"")

/-- The length that goes into the descriptor of a segment of column `ci`. -/
def segmentMaxStringLength (ci : Nat) (seg : ColumnSegmentInfo) : Option Nat :=
  if !isValidityPath seg.columnPath && isVarcharColumn projectedTypes ci then
    parseSegmentMaxStringLength seg.segmentStats
  else none

def checkMaxStringLength (ci : Nat) (seg : ColumnSegmentInfo) : Except String Unit :=
  refuseIf (!isValidityPath seg.columnPath && isVarcharColumn projectedTypes ci &&
      (parseSegmentMaxStringLength seg.segmentStats).isNone)
    ("varchar segment on column " ++ toString seg.columnId ++ " row group " ++
      toString seg.rowGroupIndex ++ ": Max String Length stat absent from segment_stats")

def buildSegmentDescriptor (ci : Nat) (seg : ColumnSegmentInfo) : SegmentDescriptor where
  blockId := seg.blockId
  segmentStart := seg.segmentStart
  segmentCount := seg.segmentCount
  compression := parseCompressionString seg.compressionType
  maxStringLength := segmentMaxStringLength projectedTypes ci seg

def ColumnMetadata.push (col : ColumnMetadata) (validitySeg : Bool) (desc : SegmentDescriptor) :
    ColumnMetadata :=
  if validitySeg then { col with validitySegments := col.validitySegments ++ [desc] }
  else { col with dataSegments := col.dataSegments ++ [desc] }

def RowGroupMetadata.push (ci : Nat) (seg : ColumnSegmentInfo) (rg : RowGroupMetadata) :
    RowGroupMetadata :=
  let desc := buildSegmentDescriptor projectedTypes ci seg
  { rg with columns := rg.columns.modify ci (·.push (isValidityPath seg.columnPath) desc) }

def addSegment (rowGroups : List RowGroupMetadata) (seg : ColumnSegmentInfo) :
    Except String (List RowGroupMetadata) :=
  match projectedLookup projectedCols seg.columnId with
  | none => .ok rowGroups
  | some ci => do
    checkCompression seg
    checkMaxStringLength projectedTypes ci seg
    return rowGroups.modify seg.rowGroupIndex (RowGroupMetadata.push projectedTypes ci seg)

def ColumnMetadata.sortSegments (col : ColumnMetadata) : ColumnMetadata :=
  { col with
    dataSegments := col.dataSegments.insertionSort (·.segmentStart ≤ ·.segmentStart)
    validitySegments := col.validitySegments.insertionSort (·.segmentStart ≤ ·.segmentStart) }

/-- `compute_row_counts`. A row group without statistics has as many rows as its first column that has
any. -/
def computeRowCount (rg : RowGroupMetadata) : RowGroupMetadata :=
  { rg with rowCount :=
      match storage.partitionStats[rg.rowGroupIndex]? with
      | some ps => ps.count
      | none =>
        (((rg.columns.filter (!·.isRowid)).map fun col =>
          (col.dataSegments.map (·.segmentCount)).sum).find? (0 < ·)).getD 0 }

/-- What a column of `rowCount` rows takes after the decode. -/
def columnBudget (rowCount : Nat) (col : ColumnMetadata) (type : LogicalType) : Nat :=
  if col.isRowid then rowCount * 8
  else if isVarchar type then col.charsUpperBound + rowCount * 4
  else rowCount * fixedWidthByteSize type

def computeDecodedByteBudget (rg : RowGroupMetadata) : RowGroupMetadata :=
  { rg with decodedBytesBudget :=
      (List.zipWith (columnBudget rg.rowCount) rg.columns projectedTypes).sum }

def dropEmptyTrailingRowGroups (rowGroups : List RowGroupMetadata) : List RowGroupMetadata :=
  rowGroups.rdropWhile fun rg => rg.rowCount == 0 && !rg.columns.any (·.isRowid)

/-- The space for the characters of one column, which has to stay below the limit of cuDF. -/
def varcharBytes (rowGroupIndex : Nat) : ColumnMetadata × LogicalType → Except String Nat
  | (col, type) =>
    if col.isRowid || !isVarchar type then .ok 0
    else if cudfInt32StringsThreshold ≤ col.charsUpperBound then
      .error ("row group " ++ toString rowGroupIndex ++ " column " ++ toString col.columnId ++
        " varchar chars upper bound (" ++ toString col.charsUpperBound ++
        ") >= cudf int32 chars threshold")
    else .ok col.charsUpperBound

def setVarcharBytes (rg : RowGroupMetadata) : Except String RowGroupMetadata := do
  let bytes ← (rg.columns.zip projectedTypes).mapM (varcharBytes rg.rowGroupIndex)
  return { rg with varcharBytesPerCol := bytes }

def finishRowGroups (rowGroups : List RowGroupMetadata) : List RowGroupMetadata :=
  dropEmptyTrailingRowGroups <| rowGroups.map fun rg =>
    computeDecodedByteBudget projectedTypes <|
      computeRowCount storage { rg with columns := rg.columns.map (·.sortSegments) }

/-- **`walk_duckdb_native_metadata`.** The row groups if the table is viable, and otherwise the reason
why it is not. -/
def walkDuckdbNativeMetadata : Except String (List RowGroupMetadata) := do
  refuseIf projectedCols.isEmpty "no projected columns"
  refuseIf (projectedCols.length != projectedTypes.length)
    "projected_cols and projected_types size mismatch"
  checkTypes projectedCols projectedTypes
  let handles ← rowGroupStarts storage
  let segments := columnSegments storage projectedCols
  let rowGroups ← segments.foldlM (addSegment projectedCols projectedTypes)
    ((List.range (numRowGroups handles segments)).map (emptyRowGroup projectedCols handles))
  let rowGroups ← (finishRowGroups storage projectedTypes rowGroups).mapM
    (setVarcharBytes projectedTypes)
  refuseIf rowGroups.isEmpty "no row groups in table (empty or fully pruned)"
  return rowGroups

end Walk

end Sirius.Native
