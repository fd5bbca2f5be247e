import Sirius.Native.Staging

/-!
# The null mask of a decoded column

A row is NULL by the validity segment that it is in: by a bit of a bitmap (UNCOMPRESSED or ROARING), by
the statistics of a CONSTANT segment, or, behind an EMPTY one, by dictionary index 0 of the DICT_FSST
segment with its data. The decoder starts from a mask of valid rows, copies the bitmaps over it byte by
byte and clears the rows with dictionary index 0. It only makes a mask if the column has a bitmap or a
DICT_FSST segment says that it has NULLs of its own.

A ROARING segment is turned into a bitmap on the host, container by container
(`decode_roaring_validity`). DuckDB's `RoaringScanState` is a parameter: it is only known that the rows that
were asked for have their validity in the mask it leaves.
-/

namespace Sirius.Native

open Lib

/-! ## Contents of segments -/

structure DictFsstHeader where
  dictSize : Nat
  dictCount : Nat
  mode : Nat
  stringLengthsWidth : Nat
  dictionaryIndicesWidth : Nat
  symbolTableSize : Nat

def dictFsstModeDictionary : Nat := 0

def dictFsstModeFsstOnly : Nat := 2

/-- The bytes of a DICT_FSST segment: the header, the length of the entry with index 0 and the packed
dictionary index of every row. -/
structure DictFsstBytes where
  bytesSize : Nat
  header : DictFsstHeader
  firstLength : Nat
  packedIndex : Nat → Nat

/-- `unpack_value` of a dictionary index -/
def DictFsstBytes.index (bytes : DictFsstBytes) (k : Nat) : Nat :=
  if bytes.header.dictionaryIndicesWidth = 0 then 0 else bytes.packedIndex k

/-- Index 0 stands for NULL, except in mode FSST_ONLY, where no row has it. -/
def DictFsstBytes.isNull (bytes : DictFsstBytes) (k : Nat) : Bool :=
  bytes.header.mode != dictFsstModeFsstOnly && bytes.index k == 0

/-! ## ROARING validity -/

/-- A ROARING validity segment. `scanPartial start count` is the mask that `ScanPartial` leaves in a vector
of valid rows, for `count` rows from row `start` on; there is none if all of them are valid. The bits behind
these rows can be anything. -/
structure RoaringSegment where
  bit : Nat → Bool
  scanPartial : Nat → Nat → Option (Nat → Bool)
  scanPartial_bit : ∀ start count i, i < count →
    (scanPartial start count).elim true (fun vm => vm i) = bit (start + i)

def roaringContainerSize : Nat := 2048

/-- `memcpy` of whole bytes of a mask to a place in the bitmap -/
def copyBytes (out : Nat → Bool) (byteOffset bytesToCopy : Nat) (vm : Nat → Bool) : Nat → Bool := fun k =>
  if byteOffset * 8 ≤ k ∧ k < (byteOffset + bytesToCopy) * 8 then vm (k - byteOffset * 8) else out k

namespace RoaringSegment

variable (seg : RoaringSegment) (rowCount : Nat)

/-- One round of the loop, for the container with this number. -/
def scanChunk (out : Nat → Bool) (chunk : Nat) : Nat → Bool :=
  let scanned := chunk * roaringContainerSize
  let toScan := min roaringContainerSize (rowCount - scanned)
  match seg.scanPartial scanned toScan with
  | none => out
  | some vm => copyBytes out (scanned / 8) ((toScan + 7) / 8) vm

/-- `decode_roaring_validity`: the bits of a bitmap that is full at first. -/
def decodeRoaringValidity : Nat → Bool :=
  (List.range ((rowCount + roaringContainerSize - 1) / roaringContainerSize)).foldl (seg.scanChunk rowCount)
    fun _ => true

/-- The containers up to here have the bits of their rows, and behind them the bitmap is still full. -/
def Scanned (chunk : Nat) (out : Nat → Bool) : Prop :=
  ∀ k, (k < chunk * roaringContainerSize → k < rowCount → out k = seg.bit k) ∧
    (chunk * roaringContainerSize ≤ k → out k = true)

variable {seg rowCount}

theorem Scanned.scanChunk {chunk : Nat} {out : Nat → Bool} (h : seg.Scanned rowCount chunk out)
    (hchunk : chunk * roaringContainerSize < rowCount) :
    seg.Scanned rowCount (chunk + 1) (seg.scanChunk rowCount out chunk) := by
  have hsize : roaringContainerSize = 2048 := rfl
  rw [hsize] at hchunk
  intro k
  obtain ⟨hbefore, hbehind⟩ := h k
  have hbit := seg.scanPartial_bit (chunk * 2048) (min 2048 (rowCount - chunk * 2048)) (k - chunk * 2048)
  simp only [RoaringSegment.scanChunk, hsize, Nat.succ_mul] at hbefore hbehind hbit ⊢
  cases hscan : seg.scanPartial (chunk * 2048) (min 2048 (rowCount - chunk * 2048)) with
  | none =>
    rw [hscan, Option.elim_none] at hbit
    refine ⟨fun hk hrow => ?_, fun hk => hbehind (Nat.le_trans (Nat.le_add_right _ _) hk)⟩
    by_cases hlt : k < chunk * 2048
    · exact hbefore hlt hrow
    · have hvalid : true = seg.bit (chunk * 2048 + (k - chunk * 2048)) := hbit (by omega)
      rw [Nat.add_sub_cancel' (by omega)] at hvalid
      exact (hbehind (by omega)).trans hvalid
  | some vm =>
    rw [hscan, Option.elim_some] at hbit
    dsimp only [copyBytes]
    -- a container has whole bytes, so that its bits start at a byte and none is behind it
    refine ⟨fun hk hrow => ?_, fun hk => ?_⟩
    · by_cases hlt : k < chunk * 2048
      · rw [if_neg (by omega)]
        exact hbefore hlt hrow
      · have hvm : vm (k - chunk * 2048) = seg.bit (chunk * 2048 + (k - chunk * 2048)) := hbit (by omega)
        rw [Nat.add_sub_cancel' (by omega)] at hvm
        rw [if_pos (by omega), show chunk * 2048 / 8 * 8 = chunk * 2048 by omega, hvm]
    · rw [if_neg (by omega)]
      exact hbehind (Nat.le_trans (Nat.le_add_right _ _) hk)

/-- **The bitmap of a ROARING segment** has the validity of its rows. -/
theorem decodeRoaringValidity_eq {k : Nat} (hk : k < rowCount) :
    seg.decodeRoaringValidity rowCount k = seg.bit k := by
  have hsize : roaringContainerSize = 2048 := rfl
  have hloop : ∀ n ≤ (rowCount + roaringContainerSize - 1) / roaringContainerSize,
      seg.Scanned rowCount n ((List.range n).foldl (seg.scanChunk rowCount) fun _ => true) := by
    intro n hn
    induction n with
    | zero => exact fun k => ⟨fun hlt => absurd (Nat.zero_mul _ ▸ hlt) (Nat.not_lt_zero k), fun _ => rfl⟩
    | succ n ih =>
      rw [List.range_succ, List.foldl_append]
      apply (ih (by omega)).scanChunk
      rw [hsize] at hn ⊢
      omega
  refine (hloop _ (Nat.le_refl _) k).1 ?_ hk
  rw [hsize]
  omega

end RoaringSegment

/-! ## Contents of a table -/

/-- What the segments of a table hold, by row group, column and first row: the bits of an UNCOMPRESSED
validity segment up to the end of its last byte, a ROARING one, what the statistics of a CONSTANT one say,
and the bytes of a DICT_FSST segment. -/
structure Contents where
  bitmap : Nat → Nat → Nat → Nat → Bool
  roaring : Nat → Nat → Nat → RoaringSegment
  constantNull : Nat → Nat → Nat → Bool
  dictFsst : Nat → Nat → Nat → DictFsstBytes

/-- The segment has row `k` of its row group. -/
def SegmentDescriptor.Covers (seg : SegmentDescriptor) (k : Nat) : Prop :=
  seg.segmentStart ≤ k ∧ k < seg.segmentStart + seg.segmentCount

def StorageSegment.Covers (seg : StorageSegment) (k : Nat) : Prop :=
  seg.segmentStart ≤ k ∧ k < seg.segmentStart + seg.segmentCount

def RowGroupMetadata.columnId (rg : RowGroupMetadata) (ci : Nat) : Nat :=
  (rg.columns[ci]?.map (·.columnId)).getD 0

namespace Contents

variable (contents : Contents)

/-- **Row `k` of row group `g` is NULL in the table.** -/
def StoredNull (storage : DataTable) (g column k : Nat) : Prop :=
  ∃ columnData, storage.rowGroups[g]? = some (some columnData) ∧
    ∃ v ∈ columnData column, isValidityPath v.columnPath = true ∧ v.Covers k ∧
      match parseCompressionString v.compressionType with
      | .uncompressed => contents.bitmap g column v.segmentStart (k - v.segmentStart) = false
      | .roaring => (contents.roaring g column v.segmentStart).bit (k - v.segmentStart) = false
      | .constant => contents.constantNull g column v.segmentStart = true
      | .empty => ∃ d ∈ columnData column, isValidityPath d.columnPath = false ∧ d.Covers k ∧
          parseCompressionString d.compressionType = .dictFsst ∧
          (contents.dictFsst g column d.segmentStart).isNull (k - d.segmentStart) = true
      | _ => False

variable (ci : Nat)

/-- The bits that are staged for a validity segment: those of the file, or the decoded ones. -/
def validityBit (rg : RowGroupMetadata) (v : SegmentDescriptor) : Nat → Bool :=
  if v.compression = .roaring then
    (contents.roaring rg.rowGroupIndex (rg.columnId ci) v.segmentStart).decodeRoaringValidity v.segmentCount
  else contents.bitmap rg.rowGroupIndex (rg.columnId ci) v.segmentStart

def dictBytes (rg : RowGroupMetadata) (d : SegmentDescriptor) : DictFsstBytes :=
  contents.dictFsst rg.rowGroupIndex (rg.columnId ci) d.segmentStart

/-! ## Bitmaps -/

structure Patch where
  rowOffset : Nat
  rowCount : Nat
  bit : Nat → Bool

/-- A validity segment of the row group whose first row is `rowCursor`. -/
def stagePatch (rowCursor : Nat) (rg : RowGroupMetadata) (v : SegmentDescriptor) : Patch where
  rowOffset := (stageValidity rowCursor v).rowOffset
  rowCount := (stageValidity rowCursor v).rowCount
  bit := contents.validityBit ci rg v

def patches (split : List RowGroupMetadata) : List Patch :=
  (withCursor 0 split).flatMap fun (cursor, rg) =>
    rg.columns[ci]?.toList.flatMap fun col => col.stagedValidity.map (contents.stagePatch ci cursor rg)

def Patch.InBytes (p : Patch) (r : Nat) : Prop :=
  p.rowOffset / 8 ≤ r / 8 ∧ r / 8 < p.rowOffset / 8 + (p.rowCount + 7) / 8

instance (p : Patch) (r : Nat) : Decidable (p.InBytes r) := inferInstanceAs (Decidable (_ ∧ _))

def Patch.overlay (mask : Nat → Bool) (p : Patch) : Nat → Bool := fun r =>
  if p.InBytes r then p.bit (r - p.rowOffset / 8 * 8) else mask r

def overlayAll (split : List RowGroupMetadata) : Nat → Bool :=
  (contents.patches ci split).foldl Patch.overlay fun _ => true

/-! ## NULLs in dictionaries -/

def alignUp8 (n : Nat) : Nat := (n + 7) / 8 * 8

end Contents

open Contents (alignUp8) in
/-- The checks of `prepare_dict_fsst` on the header. A segment that fails them is replaced by a stub. -/
def DictFsstBytes.valid (bytes : DictFsstBytes) : Bool :=
  let hdr := bytes.header
  let offDict := alignUp8 16
  let offSymtab := alignUp8 (offDict + hdr.dictSize)
  let offSlens := if hdr.mode = dictFsstModeDictionary then offDict + alignUp8 hdr.dictSize
    else alignUp8 (offSymtab + hdr.symbolTableSize)
  let offDidx := alignUp8 (offSlens + (hdr.dictCount * hdr.stringLengthsWidth + 7) / 8)
  16 ≤ bytes.bytesSize && hdr.mode ≤ dictFsstModeFsstOnly &&
    (offDidx ≤ bytes.bytesSize || hdr.mode == dictFsstModeFsstOnly)

/-- The flag of `kernel_build_dict_fsst_data`: the segment may have rows with index 0. -/
def DictFsstBytes.inlineNull (bytes : DictFsstBytes) : Bool :=
  bytes.valid && bytes.header.mode != dictFsstModeFsstOnly && 1 < bytes.header.dictCount &&
    bytes.firstLength == 0

/-- A row that `kernel_dict_fsst_mark_nulls` clears. All rows of a stub have index 0. -/
def DictFsstBytes.marks (bytes : DictFsstBytes) (k : Nat) : Bool := !bytes.valid || bytes.isNull k

namespace Contents

variable (contents : Contents) (ci : Nat)

structure DictSegment where
  rowOffset : Nat
  rowCount : Nat
  bytes : DictFsstBytes

/-- The descriptors of `prepare_dict_fsst`, of all runs. A segment without rows has none. -/
def dictSegments (split : List RowGroupMetadata) : List DictSegment :=
  (withCursor 0 split).flatMap fun (cursor, rg) =>
    rg.columns[ci]?.toList.flatMap fun col =>
      (col.dataSegments.filter fun d => d.compression == .dictFsst && u32 d.segmentCount != 0).map
        fun d => ⟨(stageData cursor d).rowOffset, (stageData cursor d).rowCount,
          contents.dictBytes ci rg d⟩

def anyInlineNulls (split : List RowGroupMetadata) : Bool :=
  (contents.dictSegments ci split).any (·.bytes.inlineNull)

/-- A row of the segment that `kernel_dict_fsst_mark_nulls` clears. -/
def DictSegment.marks (s : DictSegment) (r : Nat) : Bool :=
  s.rowOffset ≤ r && r < s.rowOffset + s.rowCount && s.bytes.marks (r - s.rowOffset)

/-! ## The mask -/

/-- `decode_column_validity`. No mask stands for a column without NULLs. -/
def fixedWidthMask (split : List RowGroupMetadata) : Option (Nat → Bool) :=
  let staged := stagedColumn ci {} split
  if !staged.hasNulls || u32 staged.totalRows == 0 || (contents.patches ci split).isEmpty then none
  else some (contents.overlayAll ci split)

/-- The mask of `gpu_decode_strings_column` -/
def stringMask (split : List RowGroupMetadata) : Option (Nat → Bool) :=
  if (stagedColumn ci {} split).hasNulls || contents.anyInlineNulls ci split then
    some fun r => contents.overlayAll ci split r &&
      !(contents.anyInlineNulls ci split && (contents.dictSegments ci split).any (·.marks r))
  else none

/-- **Row `r` of the decoded column is NULL.** -/
def decodedNull (c : ScanColumn) (split : List RowGroupMetadata) (r : Nat) : Bool :=
  let mask := if isVarchar c.type then contents.stringMask c.index split
    else contents.fixedWidthMask c.index split
  mask.any fun m => !m r

end Contents

end Sirius.Native
