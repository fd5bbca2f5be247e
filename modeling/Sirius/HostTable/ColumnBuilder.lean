import Sirius.HostTable.ValidityMask
import Sirius.Native.Metadata

/-!
# Column builders

A DuckDB scan task copies the vectors of its chunks into one host allocation. For each column, a
`column_builder` (`src/op/scan/duckdb_scan_task.cpp`) has accessors for the data and the validity mask,
and for a VARCHAR column one for the offsets of the strings.

Where a builder writes is described from its first state on: after `r` rows the accessors are `r` rows
further (`Reached`), and `process_column` writes only between the start of the column's region and its
mask, and the bytes of the mask that belong to the rows (`MaskByte`).
-/

namespace Sirius.HostTable

open Lib List
open Expression (LogicalType)
open Native (fixedWidthByteSize isVarchar)

variable {blockSize : Nat}

/-! ## Vectors and builders -/

/-- A flattened vector: the bytes of its values, its strings, and its validity. -/
structure FlatVector where
  data : Memory
  strings : Nat → List Byte
  mask : Option Memory

/-- `FlatVector::Validity`, for the rows of a chunk. -/
def FlatVector.validity (vec : FlatVector) (numRows : Nat) : MaskChunk := ⟨numRows, vec.mask⟩

/-- `column_builder`. The offsets are used for VARCHAR columns only. -/
structure ColumnBuilder (blockSize : Nat) where
  type : LogicalType
  typeSize : Nat
  totalDataBytes : Nat := 0
  totalDataBytesAllocated : Nat := 0
  nullCount : Nat := 0
  offsets : Accessor blockSize
  data : Accessor blockSize
  mask : Accessor blockSize

/-- `fixed_width_byte_size` does not throw. -/
def hasByteSize (type : LogicalType) : Bool :=
  match type.id with
  | .list | .struct | .sqlNull | .invalid => false
  | _ => true

def typeSizeOf (type : LogicalType) (defaultVarcharSize : Nat) : Nat :=
  if isVarchar type then defaultVarcharSize else fixedWidthByteSize type

/-- The constructor and `initialize_accessors`. They throw for a type without a size, and if offsets
do not fit evenly into the blocks. -/
def initializeAccessors (h : 0 < blockSize) (type : LogicalType)
    (defaultVarcharSize estimatedNumRows byteOffset : Nat) (m : Allocation blockSize) :
    Option (ColumnBuilder blockSize × Allocation blockSize) :=
  let typeSize := typeSizeOf type defaultVarcharSize
  if hasByteSize type then
    if isVarchar type then
      if blockSize % 4 = 0 then
        let offsets := Accessor.initializeAt h byteOffset
        let w := BlockWriter.setCurrent ⟨offsets, m⟩ (encode 4 0)
        let allocated := estimatedNumRows * typeSize
        let dataByteOffset := byteOffset + (estimatedNumRows + 1) * 4
        let data := Accessor.initializeAt h dataByteOffset
        let mask := Accessor.initializeAt h (dataByteOffset + allocated)
        some ({ type, typeSize, totalDataBytesAllocated := allocated, offsets, data, mask },
          w.allocation)
      else none
    else
      let data := Accessor.initializeAt h byteOffset
      let mask := Accessor.initializeAt h (byteOffset + estimatedNumRows * typeSize)
      some ({ type, typeSize, offsets := Accessor.initializeAt h 0, data, mask }, m)
  else none

def FlatVector.stringBytes (vec : FlatVector) (numRows : Nat) : Nat :=
  ((List.range numRows).map fun row =>
    if (vec.validity numRows).rowIsValid row then (vec.strings row).length else 0).sum

theorem FlatVector.stringBytes_of_empty {vec : FlatVector} (h : ∀ row, vec.strings row = [])
    (numRows : Nat) : vec.stringBytes numRows = 0 := by
  have hrow : (fun row => if (vec.validity numRows).rowIsValid row then (vec.strings row).length else 0) =
      fun _ => 0 := by
    funext row
    rw [h, length_nil]
    split <;> rfl
  rw [stringBytes, hrow]
  simp

namespace ColumnBuilder

def sufficientSpaceForColumn (b : ColumnBuilder blockSize) (vec : FlatVector) (numRows : Nat) : Bool :=
  let dataBytes := if isVarchar b.type then vec.stringBytes numRows else b.typeSize * numRows
  dataBytes + b.totalDataBytes ≤ b.totalDataBytesAllocated

end ColumnBuilder

/-- The state of the loop of `process_column` over the strings. -/
structure StringWriter (blockSize : Nat) where
  offsets : Accessor blockSize
  data : Accessor blockSize
  allocation : Allocation blockSize
  dataBytes : Nat

/-- One row: its end is written behind its start, and the string is copied. Offsets have 32 bits. -/
def StringWriter.appendRow (validity : MaskChunk) (strings : Nat → List Byte)
    (s : StringWriter blockSize) (row : Nat) : StringWriter blockSize :=
  let prevOffset := BlockWriter.getCurrentAs ⟨s.offsets, s.allocation⟩ 4
  let offsets := s.offsets.advanceAs 4
  if validity.rowIsValid row then
    let str := strings row
    let w := BlockWriter.setCurrent ⟨offsets, s.allocation⟩ (encode 4 (decode prevOffset + str.length))
    let w := BlockWriter.memcpyFrom ⟨s.data, w.allocation⟩ str
    { offsets, data := w.accessor, allocation := w.allocation, dataBytes := s.dataBytes + str.length }
  else
    let w := BlockWriter.setCurrent ⟨offsets, s.allocation⟩ prevOffset
    { s with offsets, allocation := w.allocation }

def StringWriter.appendRows (vec : FlatVector) (numRows : Nat) (s : StringWriter blockSize) :
    StringWriter blockSize :=
  (List.range numRows).foldl (appendRow (vec.validity numRows) vec.strings) s

namespace ColumnBuilder

def processData (b : ColumnBuilder blockSize) (vec : FlatVector) (numRows : Nat)
    (m : Allocation blockSize) : ColumnBuilder blockSize × Allocation blockSize :=
  if isVarchar b.type then
    let s := StringWriter.appendRows vec numRows ⟨b.offsets, b.data, m, 0⟩
    ({ b with
        offsets := s.offsets
        data := s.data
        totalDataBytes := b.totalDataBytes + s.dataBytes }, s.allocation)
  else
    let dataBytes := b.typeSize * numRows
    let w := BlockWriter.memcpyFrom ⟨b.data, m⟩ (vec.data.load 0 dataBytes)
    ({ b with data := w.accessor, totalDataBytes := b.totalDataBytes + dataBytes }, w.allocation)

def processColumn (b : ColumnBuilder blockSize) (vec : FlatVector) (numRows rowOffset : Nat)
    (m : Allocation blockSize) : ColumnBuilder blockSize × Allocation blockSize :=
  let (b, m) := b.processData vec numRows m
  let mask := MaskBuilder.processMaskForColumn ⟨⟨b.mask, m⟩, b.nullCount⟩ (vec.validity numRows)
    rowOffset
  ({ b with mask := mask.writer.accessor, nullCount := mask.nullCount }, mask.writer.allocation)

end ColumnBuilder

/-! ## The bytes of a mask that are written -/

/-- A byte of the mask at `g` that is written for `n` rows behind `r`. The last byte of a bitmap that
starts inside a byte is written also if no row is left for it. -/
def MaskByte (g r n a : Nat) : Prop :=
  g + r / 8 ≤ a ∧ (a < g + (r + n + 7) / 8 ∨ a = g + (r + n) / 8 ∧ r % 8 ≠ 0 ∧ n % 8 ≠ 0)

section MaskBytes

variable (w : BlockWriter blockSize) {n c a : Nat}

theorem mem_written_setValid {fullBytes tailBits : Nat} :
    a ∈ (setValid w fullBytes tailBits).written ↔ a ∈ w.written ∨
      w.position ≤ a ∧ a < w.position + fullBytes + if tailBits ≠ 0 then 1 else 0 := by
  obtain ⟨w₁, hw₁⟩ : ∃ w₁, w₁ = if fullBytes ≠ 0 then w.memset fullMask fullBytes else w := ⟨_, rfl⟩
  have hfull : w₁.position = w.position + fullBytes ∧
      w₁.written = w.written ++ range' w.position fullBytes := by
    rw [hw₁]
    split
    · simp [BlockWriter.memset]
    next hzero =>
      obtain rfl : fullBytes = 0 := by omega
      simp
  rw [setValid, ← hw₁]
  split
  · rw [BlockWriter.written_setCurrent, hfull.1, hfull.2]
    simp only [mem_append, mem_range'_1, length_singleton, or_assoc]
    apply or_congr_right
    omega
  · rw [hfull.2]
    simp only [mem_append, mem_range'_1, Nat.add_zero]

/-- Without a bitmap, exactly the bytes of the rows are written, and the one that is started. -/
theorem mem_written_appendValid (hc : c < 8) (hfits : c ≠ 0 → FitsMinimum c n) :
    a ∈ (appendValid w n c).written ↔
      a ∈ w.written ∨ w.position ≤ a ∧ a < w.position + (c + n + 7) / 8 := by
  rw [appendValid]
  split
  next hne =>
    obtain ⟨bits, hbits⟩ : ∃ bits, bits = min (8 - c) n := ⟨_, rfl⟩
    have hcut : min (8 - c) (n % 2 ^ 32) = bits := (hfits hne).trans hbits.symm
    dsimp only
    rw [hcut]
    split
    next hfull =>
      rw [mem_written_setValid, BlockWriter.written_advance, BlockWriter.written_setCurrent,
        BlockWriter.position_advance_byte, BlockWriter.position_setCurrent]
      simp only [mem_append, mem_range'_1, length_singleton, or_assoc]
      apply or_congr_right
      split <;> omega
    next hpart =>
      obtain rfl : bits = n := by omega
      rw [Nat.sub_self, Nat.zero_div, Nat.zero_mod, setValid_zero, BlockWriter.written_setCurrent]
      simp only [mem_append, mem_range'_1, length_singleton]
      apply or_congr_right
      omega
  · rw [mem_written_setValid]
    apply or_congr_right
    split <;> omega

theorem mem_written_copyAligned (src : Memory) :
    a ∈ (copyAligned w src n).written ↔
      a ∈ w.written ∨ w.position ≤ a ∧ a < w.position + (n + 7) / 8 := by
  rw [copyAligned]
  split
  · rw [BlockWriter.written_setCurrent, BlockWriter.written_memcpyFrom,
      BlockWriter.position_memcpyFrom, Memory.length_load]
    simp only [mem_append, mem_range'_1, length_singleton, or_assoc]
    apply or_congr_right
    omega
  · rw [BlockWriter.written_memcpyFrom, Memory.length_load]
    simp only [mem_append, mem_range'_1]
    apply or_congr_right
    omega

theorem shiftLoop_written (src : List Byte) (current : Byte) :
    (shiftLoop c src current w).2.position = w.position + src.length ∧
      (shiftLoop c src current w).2.written =
        w.written ++ range' w.position src.length := by
  induction src generalizing current w with
  | nil => simp [shiftLoop]
  | cons srcByte src ih =>
    rw [shiftLoop]
    obtain ⟨hposition, hwritten⟩ := ih
      ((w.setCurrent [current ||| lowerBits c srcByte]).advance 1) (upperBits c srcByte)
    rw [hposition, hwritten, BlockWriter.written_advance, BlockWriter.written_setCurrent,
      BlockWriter.position_advance_byte, BlockWriter.position_setCurrent, length_cons]
    refine ⟨by omega, ?_⟩
    rw [append_assoc, length_singleton, Nat.add_comm src.length 1, range'_append_1]

theorem mem_written_copyShifted (src : Memory) (hc : c < 8)
    (h : a ∈ (copyShifted w src n c).written) :
    a ∈ w.written ∨ w.position ≤ a ∧
      (a < w.position + (c + n + 7) / 8 ∨ a = w.position + (c + n) / 8 ∧ n % 8 ≠ 0) := by
  obtain ⟨hposition, hwritten⟩ := shiftLoop_written w (c := c) (src.load 0 (n / 8)) w.getCurrent
  rw [Memory.length_load] at hposition hwritten
  rw [copyShifted] at h
  dsimp only at h
  split at h
  · split at h
    · rw [BlockWriter.written_setCurrent, BlockWriter.written_advance, BlockWriter.written_setCurrent,
        BlockWriter.position_advance_byte, BlockWriter.position_setCurrent, hposition, hwritten] at h
      simp only [mem_append, mem_range'_1, length_singleton, or_assoc] at h
      apply h.imp_right
      omega
    · rw [BlockWriter.written_setCurrent, hposition, hwritten] at h
      simp only [mem_append, mem_range'_1, length_singleton, or_assoc] at h
      apply h.imp_right
      omega
  · rw [hwritten] at h
    simp only [mem_append, mem_range'_1] at h
    apply h.imp_right
    omega

end MaskBytes

section Mask

variable (b : MaskBuilder blockSize) (chunk : MaskChunk) {g r a : Nat}

theorem fitsMinimum_of_lt {c n : Nat} (h : n < 2 ^ 32) : FitsMinimum c n := by
  rw [FitsMinimum, Nat.mod_eq_of_lt h]

theorem mem_written_processMask (h : b.writer.position = g + r / 8) (hrows : chunk.numRows < 2 ^ 32)
    (ha : a ∈ (b.processMaskForColumn chunk r).writer.written) :
    a ∈ b.writer.written ∨ MaskByte g r chunk.numRows a := by
  have hlt : r % 8 < 8 := Nat.mod_lt _ (by decide)
  rw [MaskBuilder.processMaskForColumn] at ha
  rw [MaskByte]
  split at ha
  · rw [mem_written_appendValid _ hlt fun _ => fitsMinimum_of_lt hrows, h] at ha
    apply ha.imp_right
    omega
  · dsimp only at ha
    split at ha
    · rw [mem_written_copyAligned, h] at ha
      apply ha.imp_right
      omega
    · have hbyte := mem_written_copyShifted _ _ hlt ha
      rw [h] at hbyte
      apply hbyte.imp_right
      omega

theorem mem_written_processMask_of_valid (h : b.writer.position = g + r / 8)
    (hmask : chunk.mask = none) (hrows : chunk.numRows < 2 ^ 32) (hfrom : g + r / 8 ≤ a)
    (hto : a < g + (r + chunk.numRows + 7) / 8) :
    a ∈ (b.processMaskForColumn chunk r).writer.written := by
  have hlt : r % 8 < 8 := Nat.mod_lt _ (by decide)
  rw [MaskBuilder.processMaskForColumn, hmask]
  dsimp only
  rw [mem_written_appendValid _ hlt fun _ => fitsMinimum_of_lt hrows, h]
  right
  omega

end Mask

/-! ## The bytes of a column that are written -/

theorem Accessor.advanceAs_of_dvd (a : Accessor blockSize) {size : Nat} (hsize : size ∣ blockSize)
    (hoffset : size ∣ a.offsetInBlock) :
    (a.advanceAs size).position = a.position + size ∧ size ∣ (a.advanceAs size).offsetInBlock := by
  have hle : a.offsetInBlock + size ≤ blockSize := by
    have hlt := a.offset_lt
    obtain ⟨k, hk⟩ := hoffset
    obtain ⟨l, hl⟩ := hsize
    rw [hk, hl] at hlt ⊢
    rw [← Nat.mul_succ]
    exact Nat.mul_le_mul_left size (Nat.lt_of_mul_lt_mul_left hlt)
  refine ⟨a.position_advanceAs hle, ?_⟩
  rw [advanceAs]
  split
  · exact Nat.dvd_add hoffset (Nat.dvd_refl size)
  · exact Nat.dvd_zero size

structure StringWriter.Writes (s s' : StringWriter blockSize) (rows : Nat) : Prop where
  offsets : s'.offsets.position = s.offsets.position + 4 * rows
  aligned : 4 ∣ s'.offsets.offsetInBlock
  data : s'.data.position + s.dataBytes = s.data.position + s'.dataBytes
  mono : s.dataBytes ≤ s'.dataBytes
  written : ∀ a ∈ s'.allocation.written, a ∈ s.allocation.written ∨
    (s.offsets.position ≤ a ∧ a < s.offsets.position + 4 * (rows + 1)) ∨
    (s.data.position ≤ a ∧ a < s'.data.position)

namespace StringWriter

variable {s s₁ s₂ : StringWriter blockSize}

theorem Writes.refl (h : 4 ∣ s.offsets.offsetInBlock) : Writes s s 0 where
  offsets := rfl
  aligned := h
  data := rfl
  mono := Nat.le_refl _
  written _ ha := .inl ha

theorem Writes.trans {k n : Nat} (h₁ : Writes s s₁ k) (h₂ : Writes s₁ s₂ n) : Writes s s₂ (k + n) where
  offsets := by
    rw [h₂.offsets, h₁.offsets]
    omega
  aligned := h₂.aligned
  data := by
    have hdata₁ := h₁.data
    have hdata₂ := h₂.data
    omega
  mono := Nat.le_trans h₁.mono h₂.mono
  written a ha := by
    have hoffsets := h₁.offsets
    have hdata₁ := h₁.data
    have hdata₂ := h₂.data
    have hmono₁ := h₁.mono
    have hmono₂ := h₂.mono
    rcases h₂.written a ha with ha | ha
    · rcases h₁.written a ha with ha | ha
      · exact .inl ha
      · right
        omega
    · right
      omega

theorem appendRow_writes (validity : MaskChunk) (strings : Nat → List Byte) (row : Nat)
    (hblock : 4 ∣ blockSize) (h : 4 ∣ s.offsets.offsetInBlock) :
    Writes s (s.appendRow validity strings row) 1 := by
  obtain ⟨hposition, haligned⟩ := s.offsets.advanceAs_of_dvd hblock h
  -- in both cases an offset is written behind the current one
  have hoffset : ∀ value : List Byte, value.length = 4 →
      (BlockWriter.setCurrent ⟨s.offsets.advanceAs 4, s.allocation⟩ value).allocation.written =
        s.allocation.written ++ range' (s.offsets.position + 4) 4 := by
    intro value hvalue
    have hwritten := BlockWriter.written_setCurrent ⟨s.offsets.advanceAs 4, s.allocation⟩ value
    rw [hvalue] at hwritten
    exact hposition ▸ hwritten
  rw [appendRow]
  dsimp only
  split
  · obtain ⟨m, hm⟩ : ∃ m, m = (BlockWriter.setCurrent ⟨s.offsets.advanceAs 4, s.allocation⟩
        (encode 4 (decode (BlockWriter.getCurrentAs ⟨s.offsets, s.allocation⟩ 4) +
          (strings row).length))).allocation := ⟨_, rfl⟩
    have hdata : (BlockWriter.memcpyFrom ⟨s.data, m⟩ (strings row)).accessor.position =
        s.data.position + (strings row).length :=
      BlockWriter.position_memcpyFrom ⟨s.data, m⟩ (strings row)
    have hwritten : (BlockWriter.memcpyFrom ⟨s.data, m⟩ (strings row)).allocation.written =
        m.written ++ range' s.data.position (strings row).length :=
      BlockWriter.written_memcpyFrom ⟨s.data, m⟩ (strings row)
    rw [hm, hoffset _ length_encode] at hwritten
    rw [← hm] at hwritten ⊢
    refine ⟨hposition, haligned, ?_, Nat.le_add_right _ _, ?_⟩
    · dsimp only
      rw [hdata]
      omega
    · intro a ha
      dsimp only at ha ⊢
      rw [hwritten] at ha
      rw [hdata]
      simp only [mem_append, mem_range'_1, or_assoc] at ha
      apply ha.imp_right
      omega
  · refine ⟨hposition, haligned, rfl, Nat.le_refl _, ?_⟩
    intro a ha
    dsimp only at ha
    rw [BlockWriter.getCurrentAs, hoffset _ Memory.length_load] at ha
    simp only [mem_append, mem_range'_1] at ha
    apply ha.imp_right
    omega

theorem appendRows_writes (vec : FlatVector) (numRows : Nat) (hblock : 4 ∣ blockSize)
    (h : 4 ∣ s.offsets.offsetInBlock) : Writes s (s.appendRows vec numRows) numRows := by
  have hloop : ∀ (rows : List Nat) (s : StringWriter blockSize), 4 ∣ s.offsets.offsetInBlock →
      Writes s (rows.foldl (appendRow (vec.validity numRows) vec.strings) s) rows.length := by
    intro rows
    induction rows with
    | nil => exact fun _ hs => .refl hs
    | cons row rows ih =>
      intro s hs
      have hfirst := appendRow_writes (vec.validity numRows) vec.strings row hblock hs
      rw [foldl_cons, length_cons, Nat.add_comm]
      exact hfirst.trans (ih _ hfirst.aligned)
  have hall := hloop (range numRows) s h
  rwa [length_range] at hall

theorem dataBytes_appendRows (vec : FlatVector) (numRows : Nat) (s : StringWriter blockSize) :
    (s.appendRows vec numRows).dataBytes = s.dataBytes + vec.stringBytes numRows := by
  have hloop : ∀ (rows : List Nat) (s : StringWriter blockSize),
      (rows.foldl (appendRow (vec.validity numRows) vec.strings) s).dataBytes =
        s.dataBytes + (rows.map fun row =>
          if (vec.validity numRows).rowIsValid row then (vec.strings row).length else 0).sum := by
    intro rows
    induction rows with
    | nil => exact fun _ => rfl
    | cons row rows ih =>
      intro s
      rw [foldl_cons, ih, map_cons, sum_cons, appendRow]
      dsimp only
      split
      · dsimp only
        omega
      · dsimp only
        omega
  exact hloop (range numRows) s

end StringWriter

/-- Where a column is laid out: its data, its mask, and its end. The offsets of strings come before
the data. -/
structure Region where
  start : Nat
  data : Nat
  mask : Nat
  stop : Nat

/-- The data of a builder after `r` rows, in a layout for `est` rows. -/
structure ColumnBuilder.DataAt (est : Nat) (region : Region) (r : Nat) (b : ColumnBuilder blockSize) :
    Prop where
  start_le : region.start ≤ region.data
  mask_eq : region.mask = region.data + est * b.typeSize
  block : isVarchar b.type = true → 4 ∣ blockSize
  aligned : isVarchar b.type = true → 4 ∣ b.offsets.offsetInBlock
  offsets : isVarchar b.type = true → b.offsets.position = region.start + 4 * r
  offsets_end : isVarchar b.type = true → region.data = region.start + 4 * (est + 1)
  allocated : isVarchar b.type = true → b.totalDataBytesAllocated = est * b.typeSize
  fits : isVarchar b.type = true → b.totalDataBytes ≤ b.totalDataBytesAllocated
  fixed : isVarchar b.type = false → b.totalDataBytes = b.typeSize * r
  data : b.data.position = region.data + b.totalDataBytes

structure ColumnBuilder.Reached (est : Nat) (region : Region) (r : Nat) (b : ColumnBuilder blockSize) :
    Prop extends b.DataAt est region r where
  mask : b.mask.position = region.mask + r / 8

namespace ColumnBuilder

variable {b : ColumnBuilder blockSize} {est r n : Nat} {region : Region} {vec : FlatVector}
  {m : Allocation blockSize}

theorem DataAt.with_mask (h : b.DataAt est region r) (mask : Accessor blockSize) (nullCount : Nat) :
    DataAt est region r { b with mask, nullCount } := { h with }

/-- **The data of a chunk.** The accessors move on by its rows. -/
theorem processData_at (h : b.DataAt est region r)
    (hspace : isVarchar b.type = true → b.sufficientSpaceForColumn vec n = true) :
    (b.processData vec n m).1.DataAt est region (r + n) := by
  rw [processData]
  split
  next hvarchar =>
    have hwrites := StringWriter.appendRows_writes (s := ⟨b.offsets, b.data, m, 0⟩) vec n
      (h.block hvarchar) (h.aligned hvarchar)
    have hbytes := StringWriter.dataBytes_appendRows vec n ⟨b.offsets, b.data, m, 0⟩
    have hspace := of_decide_eq_true (hspace hvarchar)
    rw [if_pos hvarchar] at hspace
    refine ⟨h.start_le, h.mask_eq, h.block, fun _ => hwrites.aligned, fun _ => ?_, h.offsets_end,
      h.allocated, fun _ => ?_, fun hfixed => absurd hvarchar (by simp [hfixed]), ?_⟩
    · have hposition := hwrites.offsets
      have hstart := h.offsets hvarchar
      dsimp only at hposition ⊢
      omega
    · dsimp only at hbytes ⊢
      omega
    · have hposition := hwrites.data
      have hstart := h.data
      dsimp only at hposition ⊢
      omega
  next hfixed =>
    have hposition : (BlockWriter.memcpyFrom ⟨b.data, m⟩ (vec.data.load 0 (b.typeSize * n))).accessor.position =
        b.data.position + (vec.data.load 0 (b.typeSize * n)).length :=
      BlockWriter.position_memcpyFrom ..
    rw [Memory.length_load, h.data] at hposition
    refine ⟨h.start_le, h.mask_eq, h.block, h.aligned, fun hv => absurd hv hfixed, h.offsets_end,
      h.allocated, fun hv => absurd hv hfixed, fun hf => ?_, ?_⟩
    · dsimp only
      rw [h.fixed hf, Nat.mul_add]
    · dsimp only
      rw [hposition, Nat.add_assoc]

theorem mem_written_processData (h : b.DataAt est region r)
    (hspace : isVarchar b.type = true → b.sufficientSpaceForColumn vec n = true) (hrows : r + n ≤ est)
    {a : Nat} (ha : a ∈ (b.processData vec n m).2.written) :
    a ∈ m.written ∨ region.start ≤ a ∧ a < region.mask := by
  have hstart := h.start_le
  have hmask := h.mask_eq
  have hdata := h.data
  rw [processData] at ha
  split at ha
  next hvarchar =>
    have hwrites := StringWriter.appendRows_writes (s := ⟨b.offsets, b.data, m, 0⟩) vec n
      (h.block hvarchar) (h.aligned hvarchar)
    have hbytes := StringWriter.dataBytes_appendRows vec n ⟨b.offsets, b.data, m, 0⟩
    have hposition := hwrites.data
    have hspace := of_decide_eq_true (hspace hvarchar)
    rw [if_pos hvarchar, h.allocated hvarchar] at hspace
    have hoffsets := h.offsets hvarchar
    have hend := h.offsets_end hvarchar
    dsimp only at hbytes hposition
    apply (hwrites.written a ha).imp_right
    dsimp only
    omega
  next hfixed =>
    have hwritten : (BlockWriter.memcpyFrom ⟨b.data, m⟩ (vec.data.load 0 (b.typeSize * n))).allocation.written =
        m.written ++ range' b.data.position (vec.data.load 0 (b.typeSize * n)).length :=
      BlockWriter.written_memcpyFrom ..
    rw [Memory.length_load] at hwritten
    dsimp only at ha
    rw [hwritten, mem_append, mem_range'_1] at ha
    have hsize := Nat.mul_le_mul_left b.typeSize hrows
    rw [Nat.mul_add, Nat.mul_comm _ est] at hsize
    have htotal := h.fixed (Bool.eq_false_of_not_eq_true hfixed)
    apply ha.imp_right
    omega

theorem processData_mask : (b.processData vec n m).1.mask = b.mask := by
  rw [processData]
  split <;> rfl

section

variable (h : b.Reached est region r)

include h

theorem Reached.position_mask :
    (BlockWriter.mk (b.processData vec n m).1.mask (b.processData vec n m).2).position =
      region.mask + r / 8 := by
  rw [processData_mask]
  exact h.mask

theorem processColumn_reached
    (hspace : isVarchar b.type = true → b.sufficientSpaceForColumn vec n = true) :
    (b.processColumn vec n r m).1.Reached est region (r + n) := by
  refine { (processData_at h.toDataAt hspace).with_mask _ _ with mask := ?_ }
  exact position_processMask ⟨⟨_, _⟩, _⟩ (vec.validity n) h.position_mask

/-- **The bytes that are written for a chunk of a column.** -/
theorem mem_written_processColumn
    (hspace : isVarchar b.type = true → b.sufficientSpaceForColumn vec n = true)
    (hrows : r + n ≤ est) (hn : n < 2 ^ 32) {a : Nat}
    (ha : a ∈ (b.processColumn vec n r m).2.written) :
    a ∈ m.written ∨ (region.start ≤ a ∧ a < region.mask) ∨ MaskByte region.mask r n a := by
  rcases mem_written_processMask ⟨⟨_, _⟩, _⟩ (vec.validity n) h.position_mask hn ha with ha | ha
  · rcases mem_written_processData h.toDataAt hspace hrows ha with ha | ha
    · exact .inl ha
    · exact .inr (.inl ha)
  · exact .inr (.inr ha)

theorem mem_written_processColumn_of_valid (hmask : vec.mask = none) (hn : n < 2 ^ 32) {a : Nat}
    (hfrom : region.mask + r / 8 ≤ a) (hto : a < region.mask + (r + n + 7) / 8) :
    a ∈ (b.processColumn vec n r m).2.written := by
  exact mem_written_processMask_of_valid ⟨⟨_, _⟩, _⟩ (vec.validity n) h.position_mask hmask hn hfrom hto

end

end ColumnBuilder

end Sirius.HostTable
