import Mathlib.Data.BitVec
import Sirius.Lib.ByteMemory
import Sirius.Lib.DataParallel
import Sirius.Lib.Slices

/-!
# The bitpacking decoder

A bitpacked segment consists of metadata groups of up to 2048 rows. One block of 256 threads decodes one
group (`kernel_decode_bitpacking` in `src/cuda/scan/gpu_decode_bitpacking.cu`): thread 0 reads the
metadata of the group, and all threads then write its rows, in loops that depend on the mode.

The model is the list of the writes of all threads. What each mode writes is here; what the bytes of a
segment mean, and that the decoder gets back what was put there, is in `Sirius.Native.BitpackingFormat`.
-/

namespace Sirius.Native

open Lib List

/-- `T`: an element of `size` bytes. -/
abbrev Element (size : Nat) := BitVec (8 * size)

def readElement (size : Nat) (m : Memory) (p : Nat) : Element size :=
  BitVec.ofNat (8 * size) (decode (m.load p size))

def elementBytes {size : Nat} (v : Element size) : List Byte := encode size v.toNat

@[simp]
theorem length_elementBytes {size : Nat} (v : Element size) : (elementBytes v).length = size := length_encode

theorem readElement_of_load {size : Nat} {m : Memory} {p : Nat} {v : Element size}
    (h : m.load p size = elementBytes v) : readElement size m p = v := by
  have hpow : 256 ^ size = 2 ^ (8 * size) := by
    rw [Nat.pow_mul]
  rw [readElement, h, elementBytes, decode_encode, hpow, Nat.mod_eq_of_lt v.isLt, BitVec.ofNat_toNat,
    BitVec.setWidth_eq]

def unpackValue (size : Nat) (packed : Nat → BitVec 32) (idx width : Nat) : Element size :=
  if width = 0 then 0
  else
    let bitPos := idx * width
    let wordIdx := bitPos / 32
    let bitOff := bitPos % 32
    let result : BitVec 64 := (packed wordIdx).setWidth 64
    let result := if 32 < bitOff + width then result ||| ((packed (wordIdx + 1)).setWidth 64 <<< 32)
      else result
    let result := result >>> bitOff
    -- for 8-byte types a value can reach into the second next word
    let result := if 4 < size ∧ 0 < bitOff ∧ 64 < bitOff + width then
      result ||| ((packed (wordIdx + 2)).setWidth 64 <<< (64 - bitOff)) else result
    let mask : BitVec 64 := if 64 ≤ width then BitVec.allOnes 64 else (1#64 <<< width) - 1#64
    (result &&& mask).setWidth (8 * size)

/-! ## The metadata of a group -/

inductive BitpackingMode where
  | invalid | auto | constant | constantDelta | deltaFor | plainFor
  deriving DecidableEq, Repr

namespace BitpackingMode

/-- The number of a mode. `plainFor` is `FOR`. -/
def code : BitpackingMode → Nat
  | invalid => 0
  | auto => 1
  | constant => 2
  | constantDelta => 3
  | deltaFor => 4
  | plainFor => 5

def ofCode : Nat → BitpackingMode
  | 1 => auto
  | 2 => constant
  | 3 => constantDelta
  | 4 => deltaFor
  | 5 => plainFor
  | _ => invalid

theorem ofCode_code (mode : BitpackingMode) : ofCode mode.code = mode := by
  cases mode <;> rfl

theorem code_lt (mode : BitpackingMode) : mode.code < 256 := by
  cases mode <;> decide

end BitpackingMode

structure BpGroupDesc where
  segment : Memory
  segmentBytes : Nat
  groupIdx : Nat
  groupRowCount : Nat
  globalRowOffset : Nat

/-- The shared metadata (`sm_mode` and so on). -/
structure GroupMeta (size : Nat) where
  mode : BitpackingMode := .invalid
  dataOffset : Nat := 0
  width : Nat := 0
  rowCount : Nat := 0
  frame : Element size := 0
  aux : Element size := 0

/-- The `switch` over the mode. `DELTA_FOR` reads a third element if it is there. -/
def GroupMeta.ofMode (size : Nat) (segment : Memory) (metadataEnd dataOff rowCount : Nat)
    (mode : BitpackingMode) : GroupMeta size :=
  let v0 := readElement size segment dataOff
  let v1 := readElement size segment (dataOff + size)
  match mode with
  | .constant => { mode, rowCount, aux := v0 }
  | .constantDelta => { mode, rowCount, frame := v0, aux := v1 }
  | .plainFor =>
    { mode, rowCount, frame := v0, width := v1.toNat % 2 ^ 32, dataOffset := dataOff + 2 * size }
  | .deltaFor =>
    if metadataEnd < dataOff + 3 * size then { rowCount }
    else
      { mode, rowCount, frame := v0, width := v1.toNat % 2 ^ 32,
        aux := readElement size segment (dataOff + 2 * size), dataOffset := dataOff + 3 * size }
  | _ => { rowCount }

def GroupMeta.check {size : Nat} (s : GroupMeta size) (metadataEnd : Nat) : GroupMeta size :=
  let s := if size * 8 < s.width then { s with mode := .invalid, width := 0 } else s
  if s.mode = .plainFor ∨ s.mode = .deltaFor then
    let packedWords := (s.rowCount * s.width + 31) / 32
    if metadataEnd < s.dataOffset + packedWords * 4 then { s with mode := .invalid, width := 0 } else s
  else s

/-- What thread 0 does. The offset has 24 bits, and the mode the rest of the entry. -/
def parseGroup (size : Nat) (d : BpGroupDesc) : GroupMeta size :=
  let metadataEnd := if 8 ≤ d.segmentBytes then decode (d.segment.load 0 8) else 0
  if 8 + (d.groupIdx + 1) * 4 ≤ metadataEnd ∧ metadataEnd ≤ d.segmentBytes then
    let encoded := decode (d.segment.load (metadataEnd - (d.groupIdx + 1) * 4) 4)
    let dataOff := encoded % 2 ^ 24
    let parsedMode := encoded / 2 ^ 24
    if dataOff + 2 * size ≤ metadataEnd then
      (GroupMeta.ofMode size d.segment metadataEnd dataOff d.groupRowCount
        (BitpackingMode.ofCode parsedMode)).check metadataEnd
    else { rowCount := d.groupRowCount }
  else {}

/-! ## The writes of a block -/

def blockDim : Nat := 256

def valuesPerThread : Nat := 8

/-- The loops of `CONSTANT` and `CONSTANT_DELTA`. If the output is aligned, they store vectors of
16 bytes and then the rest. -/
def fillWrites (size : Nat) (outVecAligned : Bool) (rc : Nat) (value : Nat → Element size) :
    List (Nat × Element size) :=
  (List.range blockDim).flatMap fun t =>
    if outVecAligned then
      let perVector := 16 / size
      let vecCount := rc / perVector
      ((strided t blockDim vecCount).flatMap fun v =>
        (List.range perVector).map fun lane => (v * perVector + lane, value (v * perVector + lane))) ++
      (strided (vecCount * perVector + t) blockDim rc).map fun i => (i, value i)
    else (strided t blockDim rc).map fun i => (i, value i)

/-- The packed words in shared memory: the copied ones, the guard word, and what was there before. -/
def packedWords (segment : Memory) (dataOffset words : Nat) (stale : Nat → BitVec 32) :
    Nat → BitVec 32 := fun k =>
  if k < words then BitVec.ofNat 32 (decode (segment.load (dataOffset + 4 * k) 4))
  else if k = words then 0
  else stale k

/-- The loop of `FOR`, which breaks behind the last row. -/
def forWrites {size : Nat} (rc : Nat) (value : Nat → Element size) : List (Nat × Element size) :=
  (List.range blockDim).flatMap fun t =>
    (((List.range valuesPerThread).map fun v => v * blockDim + t).takeWhile fun idx => idx < rc).map
      fun idx => (idx, value idx)

section DeltaFor

variable {size : Nat} (rc : Nat) (delta : Nat → Element size) (deltaOffset : Element size)

/-- `thread_data` when it is filled: nothing is added behind the last row. -/
def threadDelta (t v : Nat) : Element size :=
  if t * valuesPerThread + v < rc then delta (t * valuesPerThread + v) else 0

/-- `thread_data` after the loop that adds it up. -/
def threadData (t : Nat) : Nat → Element size := inclusiveScan (threadDelta rc delta t)

def threadAgg (t : Nat) : Element size := threadData rc delta t (valuesPerThread - 1)

/-- `warp_inclusive`: the inclusive sum over the lanes of a warp. -/
def warpInclusive (t : Nat) : Element size :=
  inclusiveScan (fun lane => threadAgg rc delta (t / 32 * 32 + lane)) (t % 32)

def warpTotal (w : Nat) : Element size :=
  inclusiveScan (fun lane => threadAgg rc delta (w * 32 + lane)) 31

/-- `warp_aggregates` after the second stage. -/
def warpAggregate (w : Nat) : Element size := exclusiveScan (warpTotal rc delta) w

/-- What the third stage puts into shared memory for a row of thread `t`. -/
def deltaForValue (t v : Nat) : Element size :=
  let warpPrefix := warpAggregate rc delta (t / 32)
  let threadExclusive := warpInclusive rc delta t - threadAgg rc delta t
  threadData rc delta t v + (warpPrefix + threadExclusive + deltaOffset)

def deltaForWrites : List (Nat × Element size) :=
  (List.range blockDim).flatMap fun t =>
    (((List.range valuesPerThread).map fun v => v * blockDim + t).filter fun idx => idx < rc).map
      fun idx => (idx, deltaForValue rc delta deltaOffset (idx / valuesPerThread) (idx % valuesPerThread))

end DeltaFor

def zeroWrites (size rows : Nat) : List (Nat × Element size) :=
  (List.range blockDim).flatMap fun t => (strided t blockDim rows).map fun i => (i, 0)

/-- `kernel_decode_bitpacking` for one group: the writes of all threads, from the group's first row on.
`outAddress` is the address of `d_output`. -/
def groupWrites (size outAddress : Nat) (stale : Nat → BitVec 32) (d : BpGroupDesc) :
    List (Nat × Element size) :=
  let s := parseGroup size d
  let rc := s.rowCount
  let outVecAligned := decide ((outAddress + d.globalRowOffset * size) % 16 = 0)
  let shmem := packedWords d.segment s.dataOffset ((rc * s.width + 31) / 32) stale
  let value := fun idx => s.frame + unpackValue size shmem idx s.width
  match s.mode with
  | .constant => fillWrites size outVecAligned rc fun _ => s.aux
  | .constantDelta => fillWrites size outVecAligned rc fun i => s.frame + BitVec.ofNat _ i * s.aux
  | .plainFor => forWrites rc value
  | .deltaFor => deltaForWrites rc value s.aux
  | _ => zeroWrites size d.groupRowCount

def buildGroupDescs (segment : Memory) (segmentBytes rowCount rowOffset : Nat) : List BpGroupDesc :=
  let numGroups := (rowCount + 2047) / 2048
  (List.range numGroups).map fun g =>
    { segment, segmentBytes, groupIdx := g,
      groupRowCount := if g + 1 < numGroups then 2048 else rowCount - g * 2048,
      globalRowOffset := rowOffset + g * 2048 }

def decodeWrites (size outAddress : Nat) (stale : Nat → BitVec 32) (descs : List BpGroupDesc) :
    List (Nat × Element size) :=
  descs.flatMap fun d =>
    (groupWrites size outAddress stale d).map fun w => (d.globalRowOffset + w.1, w.2)

/-! ## Each loop writes all rows -/

section Writes

variable {size rc : Nat} {value : Nat → Element size} (delta : Nat → Element size)

theorem dim_pos : 0 < blockDim := by decide

theorem zeroWrites_exact (size rows : Nat) :
    WritesExactly (zeroWrites size rows) 0 rows fun _ => 0 :=
  writesExactly_strided dim_pos fun _ => 0

theorem fillWrites_exact (hsize : 0 < 16 / size) (outVecAligned : Bool) :
    WritesExactly (fillWrites size outVecAligned rc value) 0 rc value := by
  cases outVecAligned with
  | false => exact writesExactly_strided dim_pos value
  | true =>
    obtain ⟨k, hk⟩ : ∃ k, k = 16 / size := ⟨_, rfl⟩
    rw [← hk] at hsize
    have hcount := Nat.div_mul_le_self rc k
    apply WritesExactly.of_mem_iff
    intro i a
    simp only [fillWrites, ← hk, if_true, mem_flatMap, mem_append, mem_map,
      mem_range, Prod.mk.injEq]
    constructor
    · rintro ⟨t, ht, ⟨v, hv, lane, hlane, rfl, rfl⟩ | ⟨j, hj, rfl, rfl⟩⟩
      · refine ⟨?_, rfl⟩
        have hlt := Nat.mul_le_mul_right k ((exists_mem_strided_zero dim_pos).1 ⟨t, ht, hv⟩)
        rw [Nat.succ_mul] at hlt
        omega
      · exact ⟨((exists_mem_strided dim_pos).1 ⟨t, ht, hj⟩).2, rfl⟩
    · rintro ⟨hi, rfl⟩
      rcases Nat.lt_or_ge i (rc / k * k) with hlt | hge
      · -- the row is in a vector
        obtain ⟨t, ht, hmem⟩ := (exists_mem_strided_zero dim_pos).2 (Nat.div_lt_of_lt_mul (by
          rwa [Nat.mul_comm] at hlt))
        have hdiv := Nat.div_add_mod' i k
        exact ⟨t, ht, .inl ⟨i / k, hmem, i % k, Nat.mod_lt _ hsize, hdiv, by rw [hdiv]⟩⟩
      · obtain ⟨t, ht, hmem⟩ := (exists_mem_strided dim_pos).2 ⟨hge, hi⟩
        exact ⟨t, ht, .inr ⟨i, hmem, rfl, rfl⟩⟩

/-- The rows of a group, as striped over the threads. -/
theorem exists_striped (hrc : rc ≤ 2048) {i : Nat} (hi : i < rc) :
    ∃ t < blockDim, ∃ v < valuesPerThread, v * blockDim + t = i := by
  refine ⟨i % blockDim, Nat.mod_lt _ dim_pos, i / blockDim, ?_, Nat.div_add_mod' i blockDim⟩
  have hdim : blockDim = 256 := rfl
  have hvalues : valuesPerThread = 8 := rfl
  rw [hdim, hvalues]
  omega

theorem forWrites_exact (hrc : rc ≤ 2048) : WritesExactly (forWrites rc value) 0 rc value := by
  apply WritesExactly.of_mem_iff
  intro i a
  have hgrowing : ∀ t, ((range valuesPerThread).map fun v => v * blockDim + t).Pairwise
      fun a b => decide (b < rc) = true → decide (a < rc) = true := by
    intro t
    apply pairwise_map.2
    apply pairwise_lt_range.imp
    intro v w hlt hw
    have hle := Nat.mul_le_mul_right blockDim (Nat.le_of_lt hlt)
    have hw := of_decide_eq_true hw
    exact decide_eq_true (by omega)
  simp only [forWrites, mem_flatMap, mem_range, mem_map, Prod.mk.injEq,
    (takeWhile_dropWhile_eq_filter (hgrowing _)).1, mem_filter, decide_eq_true_eq]
  constructor
  · rintro ⟨t, _, j, ⟨_, hj⟩, rfl, rfl⟩
    exact ⟨hj, rfl⟩
  · rintro ⟨hi, rfl⟩
    obtain ⟨t, ht, v, hv, hplace⟩ := exists_striped hrc hi
    exact ⟨t, ht, i, ⟨⟨v, hv, hplace⟩, hi⟩, rfl, rfl⟩

theorem threadData_eq (t v : Nat) :
    threadData rc delta t v = ∑ u ∈ Finset.range (v + 1), threadDelta rc delta t u :=
  inclusiveScan_eq_sum _ v

theorem threadAgg_eq (t : Nat) :
    threadAgg rc delta t = ∑ u ∈ Finset.range valuesPerThread, threadDelta rc delta t u :=
  threadData_eq delta t 7

theorem warpInclusive_eq (t : Nat) :
    warpInclusive rc delta t = ∑ l ∈ Finset.range (t % 32 + 1),
      ∑ u ∈ Finset.range valuesPerThread, threadDelta rc delta (t / 32 * 32 + l) u := by
  simp only [warpInclusive, inclusiveScan_eq_sum, threadAgg_eq]

theorem warpAggregate_eq (w : Nat) :
    warpAggregate rc delta w = ∑ w' ∈ Finset.range w, ∑ l ∈ Finset.range 32,
      ∑ u ∈ Finset.range valuesPerThread, threadDelta rc delta (w' * 32 + l) u := by
  simp only [warpAggregate, exclusiveScan_eq_sum, warpTotal, inclusiveScan_eq_sum, threadAgg_eq]

/-- **The prefix sum of the block** is the sequential one. -/
theorem deltaForValue_eq {delta : Nat → Element size} {deltaOffset : Element size} {i : Nat}
    (hi : i < rc) :
    deltaForValue rc delta deltaOffset (i / valuesPerThread) (i % valuesPerThread) =
      deltaOffset + ∑ j ∈ Finset.range (i + 1), delta j := by
  obtain ⟨t, ht⟩ : ∃ t, t = i / valuesPerThread := ⟨_, rfl⟩
  obtain ⟨v, hv⟩ : ∃ v, v = i % valuesPerThread := ⟨_, rfl⟩
  have hplace : t * valuesPerThread + v = i := by
    rw [ht, hv]
    exact Nat.div_add_mod' i valuesPerThread
  have hrows : ∑ j ∈ Finset.range (i + 1), delta j =
      ∑ j ∈ Finset.range (i + 1), if j < rc then delta j else 0 := by
    apply Finset.sum_congr rfl
    intro j hj
    have hj := Finset.mem_range.1 hj
    rw [if_pos (by omega)]
  have hblock := sum_blockScan (fun j => if j < rc then delta j else 0) valuesPerThread 32 t v
  rw [← ht, ← hv, deltaForValue, threadData_eq, warpAggregate_eq, warpInclusive_eq, threadAgg_eq, hrows,
    ← hplace, hblock]
  simp only [threadDelta]
  abel

theorem deltaForWrites_exact (hrc : rc ≤ 2048) {delta : Nat → Element size} {deltaOffset : Element size} :
    WritesExactly (deltaForWrites rc delta deltaOffset) 0 rc
      fun i => deltaOffset + ∑ j ∈ Finset.range (i + 1), delta j := by
  apply WritesExactly.of_mem_iff
  intro i a
  simp only [deltaForWrites, mem_flatMap, mem_range, mem_map, mem_filter,
    Prod.mk.injEq, decide_eq_true_eq]
  constructor
  · rintro ⟨t, _, j, ⟨_, hj⟩, rfl, rfl⟩
    exact ⟨hj, deltaForValue_eq hj⟩
  · rintro ⟨hi, rfl⟩
    obtain ⟨t, ht, v, hv, hplace⟩ := exists_striped hrc hi
    exact ⟨t, ht, i, ⟨⟨v, hv, hplace⟩, hi⟩, rfl, deltaForValue_eq hi⟩

end Writes

/-! ## Packed values -/

section Unpack

variable {size width : Nat} {packed : Nat → BitVec 32}

def IsElementSize (size : Nat) : Prop := size = 1 ∨ size = 2 ∨ size = 4 ∨ size = 8

theorem getLsbD_mask (hwidth : width ≤ 64) {j : Nat} (hj : j < 64) :
    (if 64 ≤ width then BitVec.allOnes 64 else (1#64 <<< width) - 1#64).getLsbD j =
      decide (j < width) := by
  split
  · rw [BitVec.getLsbD_allOnes]
    exact decide_eq_decide.2 (by omega)
  · have hlt : width < 64 := by omega
    have hpow : 2 ^ width < 2 ^ 64 := Nat.pow_lt_pow_right (by decide) hlt
    have hpos : 0 < 2 ^ width := Nat.pow_pos (by decide)
    have hmask : ((1#64 <<< width) - 1#64).toNat = 2 ^ width - 1 := by
      rw [BitVec.toNat_sub, BitVec.toNat_shiftLeft, BitVec.toNat_ofNat, Nat.shiftLeft_eq]
      omega
    rw [← BitVec.testBit_toNat, hmask, Nat.testBit_two_pow_sub_one]

theorem getLsbD_twoWords (low high : BitVec 32) {k : Nat} (hk : k < 64) :
    (low.setWidth 64 ||| high.setWidth 64 <<< 32).getLsbD k =
      if k < 32 then low.getLsbD k else high.getLsbD (k - 32) := by
  rw [BitVec.getLsbD_or, BitVec.getLsbD_setWidth, BitVec.getLsbD_shiftLeft, BitVec.getLsbD_setWidth]
  split
  next hlt =>
    simp [hk, hlt]
  next hge =>
    rw [BitVec.getLsbD_of_ge low k (by omega)]
    simp [hk, hge, show k - 32 < 64 by omega]

/-- The words that hold the first 64 bits from a position inside the first one. -/
theorem getLsbD_firstWords {w off k : Nat} (hk : k < 64) (hwidth : k < off + width) :
    (if 32 < off + width then (packed w).setWidth 64 ||| (packed (w + 1)).setWidth 64 <<< 32
      else (packed w).setWidth 64).getLsbD k = (packed (w + k / 32)).getLsbD (k % 32) := by
  split
  · rw [getLsbD_twoWords _ _ hk]
    split
    next hlt =>
      rw [Nat.div_eq_of_lt hlt, Nat.mod_eq_of_lt hlt, Nat.add_zero]
    · rw [show k / 32 = 1 by omega, show k % 32 = k - 32 by omega]
  · have hlt : k < 32 := by omega
    rw [BitVec.getLsbD_setWidth, Nat.div_eq_of_lt hlt, Nat.mod_eq_of_lt hlt, Nat.add_zero,
      decide_eq_true hk, Bool.true_and]

/-- **A packed value** has the bits of the packed words from its position on. -/
theorem getLsbD_unpackValue (hsize : IsElementSize size) (hwidth : width ≤ 8 * size) (idx : Nat)
    {j : Nat} (hj : j < 8 * size) :
    (unpackValue size packed idx width).getLsbD j =
      (decide (j < width) &&
        (packed ((idx * width + j) / 32)).getLsbD ((idx * width + j) % 32)) := by
  rw [IsElementSize] at hsize
  rw [unpackValue]
  split
  next hzero =>
    simp [hzero]
  obtain ⟨w, hw⟩ : ∃ w, w = idx * width / 32 := ⟨_, rfl⟩
  obtain ⟨off, hoff⟩ : ∃ off, off = idx * width % 32 := ⟨_, rfl⟩
  have hposition : idx * width = 32 * w + off := by
    rw [hw, hoff]
    exact (Nat.div_add_mod _ _).symm
  have hofflt : off < 32 := by omega
  dsimp only
  rw [← hw, ← hoff, BitVec.getLsbD_setWidth, BitVec.getLsbD_and, getLsbD_mask (by omega) (by omega)]
  by_cases hlt : j < width
  · rw [decide_eq_true hj, decide_eq_true hlt, Bool.true_and, Bool.true_and, Bool.and_true, hposition,
      show (32 * w + off + j) / 32 = w + (off + j) / 32 by omega,
      show (32 * w + off + j) % 32 = (off + j) % 32 by omega]
    rcases Nat.lt_or_ge (off + j) 64 with hfirst | hthird
    · -- the bit is in one of the first two words
      have hshift : ((if 32 < off + width then
            (packed w).setWidth 64 ||| (packed (w + 1)).setWidth 64 <<< 32
          else (packed w).setWidth 64) >>> off).getLsbD j =
          (packed (w + (off + j) / 32)).getLsbD ((off + j) % 32) := by
        rw [BitVec.getLsbD_ushiftRight, getLsbD_firstWords hfirst (by omega)]
      split
      · rw [BitVec.getLsbD_or, hshift, BitVec.getLsbD_shiftLeft,
          decide_eq_true (show j < 64 - off by omega)]
        simp
      · exact hshift
    · -- the bit is in the third word
      rw [if_pos ⟨by omega, by omega, by omega⟩, BitVec.getLsbD_or, BitVec.getLsbD_ushiftRight,
        BitVec.getLsbD_of_ge _ (off + j) hthird, Bool.false_or, BitVec.getLsbD_shiftLeft,
        BitVec.getLsbD_setWidth, show (off + j) / 32 = 2 by omega,
        show (off + j) % 32 = j - (64 - off) by omega, decide_eq_true (show j < 64 by omega),
        decide_eq_false (show ¬ j < 64 - off by omega),
        decide_eq_true (show j - (64 - off) < 64 by omega)]
      simp
  · simp [hlt]

theorem getLsbD_packedWords {segment : Memory} {dataOffset words b : Nat} (stale : Nat → BitVec 32)
    (hb : b < 32 * words) :
    (packedWords segment dataOffset words stale (b / 32)).getLsbD (b % 32) =
      segment.testBit dataOffset b := by
  have hmod : b % 32 < 32 := Nat.mod_lt _ (by decide)
  rw [packedWords, if_pos (by omega), BitVec.getLsbD_ofNat, decide_eq_true hmod, Bool.true_and,
    testBit_decode]
  have hload : segment.load (dataOffset + 4 * (b / 32)) (segment.load (dataOffset + 4 * (b / 32)) 4).length =
      segment.load (dataOffset + 4 * (b / 32)) 4 := by
    rw [Memory.length_load]
  rw [← Memory.testBit_of_load hload (by rw [Memory.length_load]; omega), Memory.testBit_add]
  congr 1
  omega

end Unpack

end Sirius.Native
