import Sirius.Lib.Search
import Sirius.Native.Bitpacking

/-!
# The run-length decoder

A segment of runs is decoded in two passes (`src/cuda/scan/gpu_decode_rle.cu`). In the first one, a
block of 256 threads sums up the run lengths of the segment, tile by tile, until the sum is the row count
of the segment (`kernel_build_rle`). In the second one, each chunk of 2048 rows has a block, whose
threads look up the run of each row in these sums by binary search (`kernel_expand_rle`).

In the first pass the threads tell each other by a shared flag that the segment is malformed. They read
it at the beginning of a tile and set it if they find a count of zero in the tile, with no barrier between
the two. So it depends on the schedule of the threads who sees the flag (`FlagSchedule`).

The format of a segment is in `Sirius.Native.RleFormat`.
-/

namespace Sirius.Native

open Lib List

def rleHeaderSize : Nat := 8

def rleRowsPerChunk : Nat := 2048

def buildTileEntries : Nat := 2048

def rleSmemMaxEntries : Nat := 2048

def rleBuildMaxEntries : Nat := 90112

structure RleSegmentDesc where
  bytes : Memory
  bytesSize : Nat
  segmentRowCount : Nat
  typeSize : Nat

structure RleParsedMetadata where
  countsOffset : Nat
  nCountsReal : Nat

def parseRleMetadata (desc : RleSegmentDesc) : Option RleParsedMetadata :=
  if desc.bytesSize < rleHeaderSize then none
  else
    let countsOffset := decode (desc.bytes.load 0 8)
    if countsOffset < rleHeaderSize ∨ desc.bytesSize ≤ countsOffset then none
    else
      let valuesRegionBytes := countsOffset - rleHeaderSize
      let countsRegionBytes := desc.bytesSize - countsOffset
      -- there are as many counts as values, if these can be counted
      let nReal := if 0 < desc.typeSize ∧ valuesRegionBytes % desc.typeSize = 0 then
        valuesRegionBytes / desc.typeSize else countsRegionBytes / 2
      some { countsOffset, nCountsReal := nReal % 2 ^ 32 }

def rleCount (bytes : Memory) (countsOffset k : Nat) : Nat := decode (bytes.load (countsOffset + 2 * k) 2)

theorem rleCount_lt {bytes : Memory} {countsOffset : Nat} (k : Nat) : rleCount bytes countsOffset k < 2 ^ 16 := by
  have hlt := decode_lt (bytes.load (countsOffset + 2 * k) 2)
  rw [Memory.length_load] at hlt
  exact hlt

/-! ## The sums of the run lengths -/

/-- When the threads read the flag at the beginning of a tile, and when they set it in the tile. Each
thread reads it first. -/
structure FlagSchedule where
  readTime : Nat → Nat → Nat
  writeTime : Nat → Nat → Nat
  read_lt_write : ∀ tile t, readTime tile t < writeTime tile t

section Build

variable (count : Nat → Nat) (nCountsMax rows : Nat)

def tileCount (tile j : Nat) : BitVec 32 :=
  if tile * buildTileEntries + j < nCountsMax then BitVec.ofNat 32 (count (tile * buildTileEntries + j)) else 0

/-- `thread_sums`: the inclusive scan, which goes on from the total of the tiles before. -/
def tileSum (runningTotal : BitVec 32) (tile j : Nat) : BitVec 32 :=
  runningTotal + inclusiveScan (tileCount count nCountsMax tile) j

def threadEntries (t : Nat) : List Nat := (List.range valuesPerThread).map fun i => t * valuesPerThread + i

def hasZero (tile t : Nat) : Bool :=
  (threadEntries t).any fun j =>
    tileCount count nCountsMax tile j = 0 ∧ j < nCountsMax - tile * buildTileEntries

/-- Whether a thread sees the flag at the beginning of a tile, because another one has set it already. -/
def seesFlag (s : FlagSchedule) (tile t : Nat) : Bool :=
  (List.range blockDim).any fun u =>
    hasZero count nCountsMax tile u && decide (s.writeTime tile u < s.readTime tile t)

/-- The loop for `my_first_match`: the first entry whose sum is the row count, and whether the sum of an
entry is too large. -/
def threadMatch (sums : Nat → BitVec 32) (current : Nat) : List Nat → Option Nat × Bool
  | [] => (none, false)
  | j :: js =>
    if current ≤ j then (none, false)
    else if (sums j).toNat = rows then (some j, false)
    else if rows < (sums j).toNat then (none, true)
    else threadMatch sums current js

/-- `kernel_build_rle` from a tile on: the entry count (zero for a malformed segment) and the stored sums.
There is no result if some threads have left and the others wait for them. -/
def buildLoop (s : FlagSchedule) :
    Nat → Nat → BitVec 32 → (Nat → BitVec 32) → Option (Nat × (Nat → BitVec 32))
  | 0, _, _, stored => some (0, stored)
  | tiles + 1, tile, runningTotal, stored =>
    -- the entry count is only written by thread 0
    if seesFlag count nCountsMax s tile 0 then some (0, stored)
    else if (List.range blockDim).any (seesFlag count nCountsMax s tile) then none
    else
      let sums := tileSum count nCountsMax runningTotal tile
      let stored := fun i =>
        if tile * buildTileEntries ≤ i ∧ i < min nCountsMax ((tile + 1) * buildTileEntries) then
          sums (i - tile * buildTileEntries) else stored i
      let found := (List.range blockDim).map fun t =>
        threadMatch rows sums (nCountsMax - tile * buildTileEntries) (threadEntries t)
      match (found.filterMap Prod.fst).min? with
      | some j => some (tile * buildTileEntries + j + 1, stored)
      | none =>
        if (List.range blockDim).any (hasZero count nCountsMax tile) || found.any Prod.snd then some (0, stored)
        else buildLoop s tiles (tile + 1) (sums (buildTileEntries - 1)) stored

end Build

def kernelBuildRle (s : FlagSchedule) (desc : RleSegmentDesc) (stored : Nat → BitVec 32) :
    Option (Nat × (Nat → BitVec 32)) :=
  match parseRleMetadata desc with
  | none => some (0, stored)
  | some md =>
    let nCountsMax := min md.nCountsReal rleBuildMaxEntries
    buildLoop (rleCount desc.bytes md.countsOffset) nCountsMax desc.segmentRowCount s
      ((nCountsMax + buildTileEntries - 1) / buildTileEntries) 0 0 stored

/-! ## The rows of a chunk -/

def findEntry (prefixSums : Nat → Nat) (low high row : Nat) : Nat :=
  min (partitionPoint (fun mid => prefixSums mid ≤ row) low high) (high - 1)

section Expand

variable {α : Type} (prefixSums : Nat → Nat) (values : Nat → α)

/-- One round of the loop that tries to look up only the first row of a warp. -/
def warpRound (lo hi chunkFirstRow chunkRows chunkRow : Nat) : Option (Nat × α) :=
  let lane0ChunkRow := chunkRow - chunkRow % 32
  if chunkRows ≤ lane0ChunkRow then none
  else
    let lane0SegmentRow := chunkFirstRow + lane0ChunkRow
    let lane0Entry := findEntry prefixSums lo hi lane0SegmentRow
    let lane31Row := (lane0SegmentRow + 31) % 2 ^ 32
    -- the row itself is not compared with the number of rows here
    if lane31Row < prefixSums lane0Entry then some (chunkRow, values lane0Entry)
    else if chunkRows ≤ chunkRow then none
    else some (chunkRow, values (findEntry prefixSums lo hi (chunkFirstRow + chunkRow)))

def laneRound (lo hi chunkFirstRow chunkRows chunkRow : Nat) : Option (Nat × α) :=
  if chunkRows ≤ chunkRow then none
  else some (chunkRow, values (findEntry prefixSums lo hi (chunkFirstRow + chunkRow)))

def decodeChunkRle (segmentEntryCount chunkFirstRow chunkRows : Nat) : List (Nat × α) :=
  let chunkLastRow := chunkFirstRow + chunkRows - 1
  let lo := findEntry prefixSums 0 segmentEntryCount chunkFirstRow
  let hi := findEntry prefixSums lo segmentEntryCount chunkLastRow + 1
  (List.range blockDim).flatMap fun t =>
    untilBreak (fun i =>
      if 32 * (hi - lo) ≤ chunkRows then
        warpRound prefixSums values lo hi chunkFirstRow chunkRows (i * blockDim + t)
      else laneRound prefixSums values lo hi chunkFirstRow chunkRows (i * blockDim + t))
      (List.range valuesPerThread)

def stagedSums (stale : Nat → Nat) (segmentEntryCount : Nat) : Nat → Nat :=
  if segmentEntryCount ≤ rleSmemMaxEntries then
    applyWrites stale ((List.range blockDim).flatMap fun t =>
      (strided t blockDim segmentEntryCount).map fun i => (i, prefixSums i))
  else prefixSums

def kernelExpandRle {size : Nat} (values : Nat → Element size) (stale : Nat → Nat)
    (segmentEntryCount chunkRowStart chunkRows : Nat) : List (Nat × Element size) :=
  if segmentEntryCount = 0 then zeroWrites size chunkRows
  else decodeChunkRle (stagedSums prefixSums stale segmentEntryCount) values segmentEntryCount
    chunkRowStart chunkRows

end Expand

/-- The writes of a segment, chunk by chunk. The last chunk may be shorter. -/
def overChunks {α : Type} (rowCount rowOffset : Nat) (chunk : Nat → Nat → List (Nat × α)) :
    List (Nat × α) :=
  let nChunks := (rowCount + rleRowsPerChunk - 1) / rleRowsPerChunk
  (List.range nChunks).flatMap fun c =>
    let localStart := c * rleRowsPerChunk
    let chunkRowCount := if c + 1 < nChunks then rleRowsPerChunk else rowCount - localStart
    (chunk localStart chunkRowCount).map fun w => (rowOffset + localStart + w.1, w.2)

def expandSegment (size : Nat) (stale : Nat → Nat) (bytes : Memory) (rowCount rowOffset entryCount : Nat)
    (sums : Nat → BitVec 32) : List (Nat × Element size) :=
  let values := fun k => readElement size bytes (rleHeaderSize + size * k)
  overChunks rowCount rowOffset (kernelExpandRle (fun k => (sums k).toNat) values stale entryCount)

/-- The writes of both passes for one segment of `decode_rle_data`. Segments without rows are left out. -/
def decodeRleSegment (size : Nat) (s : FlagSchedule) (stored : Nat → BitVec 32) (stale : Nat → Nat)
    (bytes : Memory) (bytesSize rowCount rowOffset : Nat) : Option (List (Nat × Element size)) :=
  if rowCount = 0 then some []
  else
    (kernelBuildRle s { bytes, bytesSize, segmentRowCount := rowCount, typeSize := size } stored).map
      fun (entryCount, sums) => expandSegment size stale bytes rowCount rowOffset entryCount sums

/-! ## What the first pass stores -/

def rowsBefore (count : Nat → Nat) (k : Nat) : Nat := ∑ i ∈ Finset.range k, count i

theorem rowsBefore_succ {count : Nat → Nat} (k : Nat) :
    rowsBefore count (k + 1) = rowsBefore count k + count k := by
  rw [rowsBefore, Finset.sum_range_succ, rowsBefore]

variable {k : Nat}

theorem rowsBefore_mono {count : Nat → Nat} {l : Nat} (h : k ≤ l) :
    rowsBefore count k ≤ rowsBefore count l := by
  induction l with
  | zero =>
    rw [Nat.le_zero.1 h]
  | succ l ih =>
    rw [rowsBefore_succ]
    rcases Nat.le_or_eq_of_le_succ h with hle | rfl
    · have hl := ih hle
      omega
    · rw [rowsBefore_succ]

section BuildPass

variable {count : Nat → Nat} {nCountsMax rows entries tile j : Nat} {s : FlagSchedule}

def totalBefore (count : Nat → Nat) (tile : Nat) : BitVec 32 :=
  BitVec.ofNat 32 (rowsBefore count (tile * buildTileEntries))

def sumsOfTile (count : Nat → Nat) (nCountsMax tile : Nat) : Nat → BitVec 32 :=
  tileSum count nCountsMax (totalBefore count tile) tile

def foundInTile (count : Nat → Nat) (nCountsMax rows tile : Nat) : List (Option Nat × Bool) :=
  (List.range blockDim).map fun t => threadMatch rows (sumsOfTile count nCountsMax tile)
    (nCountsMax - tile * buildTileEntries) (threadEntries t)

def storeTile (count : Nat → Nat) (nCountsMax tile : Nat) (stored : Nat → BitVec 32) : Nat → BitVec 32 :=
  fun i =>
    if tile * buildTileEntries ≤ i ∧ i < min nCountsMax ((tile + 1) * buildTileEntries) then
      sumsOfTile count nCountsMax tile (i - tile * buildTileEntries) else stored i

/-- The scan of a tile, up to the last count. -/
theorem sumsOfTile_eq (hj : tile * buildTileEntries + j < nCountsMax) :
    sumsOfTile count nCountsMax tile j =
      BitVec.ofNat 32 (rowsBefore count (tile * buildTileEntries + j + 1)) := by
  induction j with
  | zero =>
    rw [sumsOfTile, totalBefore, tileSum, inclusiveScan, tileCount, if_pos hj, ← BitVec.ofNat_add,
      Nat.add_zero, rowsBefore_succ]
  | succ j ih =>
    have hstep := ih (by omega)
    rw [sumsOfTile, tileSum] at hstep
    rw [sumsOfTile, tileSum, inclusiveScan, ← add_assoc, add_comm _ (tileCount _ _ _ _), add_assoc, hstep,
      tileCount, if_pos hj, ← BitVec.ofNat_add, Nat.add_comm, ← Nat.add_assoc, ← rowsBefore_succ]

theorem toNat_sumsOfTile (hj : tile * buildTileEntries + j < nCountsMax) :
    (sumsOfTile count nCountsMax tile j).toNat =
      rowsBefore count (tile * buildTileEntries + j + 1) % 2 ^ 32 := by
  rw [sumsOfTile_eq hj, BitVec.toNat_ofNat]

variable {t j tile : Nat} {sums : Nat → BitVec 32} {current : Nat} {js : List Nat}

theorem mem_threadEntries : j ∈ threadEntries t ↔ j / valuesPerThread = t := by
  have hvalues : valuesPerThread = 8 := rfl
  simp only [threadEntries, hvalues, mem_map, mem_range]
  constructor
  · rintro ⟨i, hi, rfl⟩
    omega
  · rintro rfl
    exact ⟨j % 8, by omega, by omega⟩

theorem pairwise_threadEntries (t : Nat) : (threadEntries t).Pairwise (· < ·) := by
  apply pairwise_map.2
  apply pairwise_lt_range.imp
  intro i j hlt
  omega

theorem hasZero_eq_true :
    hasZero count nCountsMax tile t = true ↔ ∃ j, j / valuesPerThread = t ∧
      tileCount count nCountsMax tile j = 0 ∧ j < nCountsMax - tile * buildTileEntries := by
  simp only [hasZero, any_eq_true, mem_threadEntries, decide_eq_true_eq]

theorem tileCount_eq_zero (hcount : ∀ i, count i < 2 ^ 16) (hj : tile * buildTileEntries + j < nCountsMax) :
    tileCount count nCountsMax tile j = 0 ↔ count (tile * buildTileEntries + j) = 0 := by
  have hsmall := hcount (tile * buildTileEntries + j)
  rw [tileCount, if_pos hj, ← BitVec.toNat_inj, BitVec.toNat_ofNat, Nat.mod_eq_of_lt (by omega)]
  rfl

theorem threadMatch_none (hjs : js.Pairwise (· < ·)) :
    threadMatch rows sums current js = (none, false) ↔
      ∀ j ∈ js, j < current → (sums j).toNat < rows := by
  induction js with
  | nil =>
    constructor
    · intro _ j hj
      cases hj
    · intro _
      rfl
  | cons j js ih =>
    obtain ⟨hfirst, hrest⟩ := pairwise_cons.1 hjs
    rw [threadMatch]
    split
    · -- all entries behind are not valid either
      constructor
      · intro _ i hi hlt
        rcases mem_cons.1 hi with rfl | hi
        · omega
        · have hless := hfirst i hi
          omega
      · intro _
        rfl
    · grind

theorem threadMatch_some {js' : List Nat} (h : ∀ i ∈ js, i < current ∧ (sums i).toNat < rows)
    (hj : j < current) (hsum : (sums j).toNat = rows) :
    threadMatch rows sums current (js ++ j :: js') = (some j, false) := by
  induction js with
  | nil =>
    rw [nil_append, threadMatch, if_neg (Nat.not_le.2 hj), if_pos hsum]
  | cons i js ih =>
    obtain ⟨hi, hlt⟩ := h i (.head _)
    rw [cons_append, threadMatch, if_neg (Nat.not_le.2 hi), if_neg (Nat.ne_of_lt hlt),
      if_neg (Nat.not_lt.2 (Nat.le_of_lt hlt)), ih fun i' hi' => h i' (.tail _ hi')]

theorem threadMatch_sound (h : (threadMatch rows sums current js).1 = some j) :
    j ∈ js ∧ j < current ∧ (sums j).toNat = rows := by
  induction js with
  | nil => cases h
  | cons i js ih =>
    rw [threadMatch] at h
    grind

/-- The loop stops at an entry, unless the sum of the counts is the row count in the same tile. -/
def Stops (count : Nat → Nat) (rows e : Nat) : Prop := count e = 0 ∨ rows ≤ rowsBefore count (e + 1) % 2 ^ 32

/-- Whether the loop goes on after a tile: no thread has found the row count, a zero or a sum that is too
large. -/
def goesOn (count : Nat → Nat) (nCountsMax rows tile : Nat) : Bool :=
  ((foundInTile count nCountsMax rows tile).filterMap Prod.fst).min? = none &&
    !((List.range blockDim).any (hasZero count nCountsMax tile) ||
      (foundInTile count nCountsMax rows tile).any Prod.snd)

theorem tile_sizes : blockDim = 256 ∧ valuesPerThread = 8 ∧ buildTileEntries = 2048 := ⟨rfl, rfl, rfl⟩

theorem goesOn_eq_true : goesOn count nCountsMax rows tile = true ↔
    ((foundInTile count nCountsMax rows tile).filterMap Prod.fst).min? = none ∧
      ((range blockDim).any (hasZero count nCountsMax tile) ||
        (foundInTile count nCountsMax rows tile).any Prod.snd) = false := by
  rw [goesOn, Bool.and_eq_true, Bool.not_eq_true', decide_eq_true_eq]

theorem goesOn_iff (hcount : ∀ i, count i < 2 ^ 16) :
    goesOn count nCountsMax rows tile = true ↔
      ∀ j < buildTileEntries, tile * buildTileEntries + j < nCountsMax →
        ¬ Stops count rows (tile * buildTileEntries + j) := by
  obtain ⟨hdim, hvalues, hentries⟩ := tile_sizes
  have hquiet : goesOn count nCountsMax rows tile = true ↔
      ∀ t < blockDim, ¬ hasZero count nCountsMax tile t = true ∧ threadMatch rows
        (sumsOfTile count nCountsMax tile) (nCountsMax - tile * buildTileEntries) (threadEntries t) =
          (none, false) := by
    rw [goesOn_eq_true, min?_eq_none_iff, filterMap_eq_nil_iff, Bool.or_eq_false_iff,
      any_eq_false, any_eq_false]
    simp only [foundInTile, forall_mem_map, mem_range, Prod.ext_iff, Bool.not_eq_true]
    grind
  rw [hquiet]
  constructor
  · intro h j hj hlt hstops
    obtain ⟨hzero, hnone⟩ := h (j / valuesPerThread) (by rw [hvalues]; omega)
    rcases hstops with hcount0 | hover
    · exact hzero (hasZero_eq_true.2 ⟨j, rfl, (tileCount_eq_zero hcount hlt).2 hcount0, by omega⟩)
    · have hbelow := (threadMatch_none (pairwise_threadEntries _)).1 hnone j (mem_threadEntries.2 rfl) (by omega)
      rw [toNat_sumsOfTile hlt] at hbelow
      omega
  · intro h t ht
    constructor
    · intro hzero
      obtain ⟨j, hj, hcount0, hlt⟩ := hasZero_eq_true.1 hzero
      rw [hvalues] at hj
      exact h j (by omega) (by omega) (.inl ((tileCount_eq_zero hcount (by omega)).1 hcount0))
    · apply (threadMatch_none (pairwise_threadEntries _)).2
      intro j hj hlt
      rw [mem_threadEntries, hvalues] at hj
      rw [toNat_sumsOfTile (by omega)]
      exact Nat.lt_of_not_le fun hover => h j (by omega) (by omega) (.inr hover)

/-- The sums that are stored for the first entries. -/
def StoredUpTo (count : Nat → Nat) (stored : Nat → BitVec 32) (k : Nat) : Prop :=
  ∀ i < k, stored i = BitVec.ofNat 32 (rowsBefore count (i + 1))

variable {stored : Nat → BitVec 32}

theorem StoredUpTo.storeTile (h : StoredUpTo count stored (tile * buildTileEntries))
    (hk : k ≤ nCountsMax) (htile : k ≤ (tile + 1) * buildTileEntries) :
    StoredUpTo count (storeTile count nCountsMax tile stored) k := by
  intro i hi
  rw [Native.storeTile]
  split
  next hin =>
    rw [sumsOfTile_eq (by omega), Nat.add_sub_cancel' hin.1]
  · exact h i (by omega)

/-- Nobody sees the flag if nobody has found a zero. -/
theorem seesFlag_eq_false
    (h : ∀ u < blockDim, hasZero count nCountsMax tile u = true →
      s.readTime tile t ≤ s.writeTime tile u) :
    seesFlag count nCountsMax s tile t = false := by
  apply Bool.eq_false_iff.2
  intro hsees
  simp only [seesFlag, any_eq_true, mem_range, Bool.and_eq_true, decide_eq_true_eq] at hsees
  obtain ⟨u, hu, hzero, hlate⟩ := hsees
  have hle := h u hu hzero
  omega

theorem nobody_sees (hontime : ∀ t < blockDim, ∀ u < blockDim, hasZero count nCountsMax tile u = true →
      s.readTime tile t ≤ s.writeTime tile u) :
    seesFlag count nCountsMax s tile 0 = false ∧
      (range blockDim).any (seesFlag count nCountsMax s tile) = false := by
  have hsees : ∀ t < blockDim, seesFlag count nCountsMax s tile t = false :=
    fun t ht => seesFlag_eq_false (hontime t ht)
  refine ⟨hsees 0 dim_pos, any_eq_false.2 fun t ht => ?_⟩
  rw [hsees t (mem_range.1 ht)]
  exact Bool.false_ne_true

theorem buildLoop_succ (tiles : Nat) (stored : Nat → BitVec 32) :
    buildLoop count nCountsMax rows s (tiles + 1) tile (totalBefore count tile) stored =
      if seesFlag count nCountsMax s tile 0 then some (0, stored)
      else if (range blockDim).any (seesFlag count nCountsMax s tile) then none
      else
        match ((foundInTile count nCountsMax rows tile).filterMap Prod.fst).min? with
        | some j => some (tile * buildTileEntries + j + 1, storeTile count nCountsMax tile stored)
        | none =>
          if (range blockDim).any (hasZero count nCountsMax tile) ||
              (foundInTile count nCountsMax rows tile).any Prod.snd then
            some (0, storeTile count nCountsMax tile stored)
          else buildLoop count nCountsMax rows s tiles (tile + 1)
            (sumsOfTile count nCountsMax tile (buildTileEntries - 1)) (storeTile count nCountsMax tile stored) :=
  rfl

def lastTile (entries : Nat) : Nat := (entries - 1) / buildTileEntries

theorem lastTile_le (hpos : 0 < entries) :
    lastTile entries * buildTileEntries < entries ∧ entries ≤ (lastTile entries + 1) * buildTileEntries := by
  have hentries : buildTileEntries = 2048 := rfl
  rw [lastTile, hentries]
  omega

theorem tile_succ (tile : Nat) : (tile + 1) * buildTileEntries = tile * buildTileEntries + 2048 :=
  Nat.succ_mul ..

theorem sumsOfTile_last (h : (tile + 1) * buildTileEntries ≤ nCountsMax) :
    sumsOfTile count nCountsMax tile (buildTileEntries - 1) = totalBefore count (tile + 1) := by
  have hentries : buildTileEntries = 2048 := rfl
  rw [tile_succ] at h
  rw [sumsOfTile_eq (by omega), totalBefore, tile_succ]
  rfl

/-- **A tile without an entry that stops the loop** is passed: no thread has set the flag in it. -/
theorem buildLoop_of_quiet (hcount : ∀ i, count i < 2 ^ 16)
    (hnext : (tile + 1) * buildTileEntries ≤ nCountsMax)
    (hquiet : ∀ e < (tile + 1) * buildTileEntries, ¬ Stops count rows e) (tiles : Nat)
    (stored : Nat → BitVec 32) :
    buildLoop count nCountsMax rows s (tiles + 1) tile (totalBefore count tile) stored =
      buildLoop count nCountsMax rows s tiles (tile + 1) (totalBefore count (tile + 1))
        (storeTile count nCountsMax tile stored) := by
  have hentries : buildTileEntries = 2048 := rfl
  have hsucc := tile_succ tile
  have hon : goesOn count nCountsMax rows tile = true :=
    (goesOn_iff hcount).2 fun j hj _ => hquiet _ (by omega)
  obtain ⟨hnone, hfine⟩ := goesOn_eq_true.1 hon
  have hzero := (Bool.or_eq_false_iff.1 hfine).1
  have hnobody : seesFlag count nCountsMax s tile 0 = false ∧ _ := nobody_sees fun t _ u hu htrue =>
    absurd htrue (any_eq_false.1 hzero u (mem_range.2 hu))
  rw [buildLoop_succ, hnobody.1, hnobody.2, if_neg Bool.false_ne_true, if_neg Bool.false_ne_true, hnone]
  dsimp only
  rw [hfine, if_neg Bool.false_ne_true, sumsOfTile_last hnext]

/-- The counts come to the row count with the last of the first `entries` entries, and the loop is not
stopped by a zero in a tile before. -/
structure EndsAt (count : Nat → Nat) (nCountsMax rows entries : Nat) : Prop where
  entries_pos : 0 < entries
  entries_le : entries ≤ nCountsMax
  count_ne_zero : ∀ i < lastTile entries * buildTileEntries, count i ≠ 0
  count_lt : ∀ i, count i < 2 ^ 16
  before : rowsBefore count (entries - 1) < rows
  total : rowsBefore count entries = rows
  rows_lt : rows < 2 ^ 32

section

variable (h : EndsAt count nCountsMax rows entries)

include h

theorem EndsAt.rowsBefore_lt (hk : k < entries) : rowsBefore count k < rows :=
  Nat.lt_of_le_of_lt (rowsBefore_mono (by omega)) h.before

theorem EndsAt.mod_rowsBefore (hk : k ≤ entries) :
    rowsBefore count k % 2 ^ 32 = rowsBefore count k := by
  have hle : rowsBefore count k ≤ rowsBefore count entries := rowsBefore_mono hk
  have hlt := h.rows_lt
  rw [h.total] at hle
  exact Nat.mod_eq_of_lt (by omega)

/-- No entry of the tiles before stops the loop. -/
theorem EndsAt.not_stops {i : Nat} (hi : i < lastTile entries * buildTileEntries) :
    ¬ Stops count rows i := by
  have hlast := (lastTile_le h.entries_pos).1
  have hlt := h.rowsBefore_lt (show i + 1 < entries by omega)
  have hmod := h.mod_rowsBefore (show i + 1 ≤ entries by omega)
  have hne := h.count_ne_zero i hi
  rw [Stops, hmod]
  omega

theorem EndsAt.buildLoop_before (tiles : Nat) (htile : tile < lastTile entries)
    (hstored : StoredUpTo count stored (tile * buildTileEntries)) :
    ∃ stored', StoredUpTo count stored' ((tile + 1) * buildTileEntries) ∧
      buildLoop count nCountsMax rows s (tiles + 1) tile (totalBefore count tile) stored =
        buildLoop count nCountsMax rows s tiles (tile + 1) (totalBefore count (tile + 1)) stored' := by
  have hmax := h.entries_le
  have hlast := (lastTile_le h.entries_pos).1
  have hnext : (tile + 1) * buildTileEntries ≤ lastTile entries * buildTileEntries :=
    Nat.mul_le_mul_right _ htile
  exact ⟨storeTile count nCountsMax tile stored, hstored.storeTile (by omega) (Nat.le_refl _),
    buildLoop_of_quiet h.count_lt (by omega) (fun e he => h.not_stops (by omega)) tiles stored⟩

theorem EndsAt.buildLoop_reach {tiles : Nat} (stored : Nat → BitVec 32)
    (htile : tile ≤ lastTile entries) (htiles : tile ≤ tiles) :
    ∃ stored', StoredUpTo count stored' (tile * buildTileEntries) ∧
      buildLoop count nCountsMax rows s tiles 0 0 stored =
        buildLoop count nCountsMax rows s (tiles - tile) tile (totalBefore count tile) stored' := by
  induction tile with
  | zero =>
    refine ⟨stored, fun i hi => absurd hi (by omega), ?_⟩
    rw [totalBefore, Nat.zero_mul, Nat.sub_zero]
    rfl
  | succ tile ih =>
    obtain ⟨stored', hstored, heq⟩ := ih (by omega) (by omega)
    obtain ⟨stored'', hstored', hstep⟩ := h.buildLoop_before (s := s) (tiles - (tile + 1)) htile hstored
    refine ⟨stored'', hstored', ?_⟩
    rw [heq, ← hstep]
    congr 1
    omega

/-- **The tile with the end of the last run.** The first sum that is the row count is that of the last
run; the zeros and sums behind it do not matter. -/
theorem EndsAt.buildLoop_last (tiles : Nat)
    (hstored : StoredUpTo count stored (lastTile entries * buildTileEntries))
    (hontime : ∀ t < blockDim, ∀ u < blockDim, hasZero count nCountsMax (lastTile entries) u =
      true → s.readTime (lastTile entries) t ≤ s.writeTime (lastTile entries) u) :
    ∃ stored', StoredUpTo count stored' entries ∧
      buildLoop count nCountsMax rows s (tiles + 1) (lastTile entries) (totalBefore count (lastTile entries))
          stored = some (entries, stored') := by
  obtain ⟨hdim, hvalues, hentries⟩ := tile_sizes
  have hmax := h.entries_le
  obtain ⟨hfirst, hend⟩ := lastTile_le h.entries_pos
  obtain ⟨tile, htile⟩ : ∃ tile, tile = lastTile entries := ⟨_, rfl⟩
  rw [← htile] at hstored hontime hfirst hend ⊢
  -- the last run is entry `j` of the tile
  obtain ⟨j, hj⟩ := Nat.exists_eq_add_of_lt hfirst
  have howner : j / valuesPerThread < blockDim := by
    rw [Nat.succ_mul] at hend
    rw [hvalues, hdim]
    omega
  have hsum : ∀ i, tile * buildTileEntries + i < entries →
      (sumsOfTile count nCountsMax tile i).toNat = rowsBefore count (tile * buildTileEntries + i + 1) := by
    intro i hi
    rw [toNat_sumsOfTile (by omega), h.mod_rowsBefore hi]
  have hbelow : ∀ i < j, (sumsOfTile count nCountsMax tile i).toNat < rows := by
    intro i hi
    rw [hsum i (by omega)]
    exact h.rowsBefore_lt (by omega)
  have hlast : (sumsOfTile count nCountsMax tile j).toNat = rows := by
    rw [hsum j (by omega), ← hj, h.total]
  have hfound : threadMatch rows (sumsOfTile count nCountsMax tile) (nCountsMax - tile * buildTileEntries)
      (threadEntries (j / valuesPerThread)) = (some j, false) := by
    obtain ⟨before, behind, hsplit⟩ := append_of_mem (mem_threadEntries.2 rfl : j ∈ threadEntries _)
    have hsorted := pairwise_threadEntries (j / valuesPerThread)
    rw [hsplit, pairwise_append] at hsorted
    rw [hsplit]
    apply threadMatch_some _ (by omega) hlast
    intro i hi
    have hlt := hsorted.2.2 i hi j (.head _)
    exact ⟨by omega, hbelow i hlt⟩
  have hmin : ((foundInTile count nCountsMax rows tile).filterMap Prod.fst).min? = some j := by
    rw [min?_eq_some_iff]
    constructor
    · apply mem_filterMap.2
      refine ⟨_, mem_map.2 ⟨j / valuesPerThread, mem_range.2 howner, rfl⟩, ?_⟩
      rw [hfound]
    · intro i hi
      obtain ⟨found, hmem, hfst⟩ := mem_filterMap.1 hi
      obtain ⟨t, _, rfl⟩ := mem_map.1 hmem
      obtain ⟨-, -, heq⟩ := threadMatch_sound hfst
      apply Nat.le_of_not_lt
      intro hlt
      have hless := hbelow i hlt
      omega
  refine ⟨storeTile count nCountsMax tile stored, hstored.storeTile hmax hend, ?_⟩
  rw [buildLoop_succ, (nobody_sees hontime).1, (nobody_sees hontime).2, if_neg Bool.false_ne_true,
    if_neg Bool.false_ne_true, hmin, hj]

/-- The loop over the tiles begins the tile of the last run. -/
theorem EndsAt.exists_tiles :
    ∃ tiles, (nCountsMax + buildTileEntries - 1) / buildTileEntries = lastTile entries + (tiles + 1) := by
  have hentries : buildTileEntries = 2048 := rfl
  have hle := h.entries_le
  have hpos := h.entries_pos
  refine ⟨(nCountsMax + buildTileEntries - 1) / buildTileEntries - lastTile entries - 1, ?_⟩
  rw [lastTile, hentries]
  omega

/-- The first pass, if no thread sees the flag in the tile of the last run. -/
theorem EndsAt.buildLoop_eq
    (hontime : ∀ t < blockDim, ∀ u < blockDim, hasZero count nCountsMax (lastTile entries) u =
      true → s.readTime (lastTile entries) t ≤ s.writeTime (lastTile entries) u)
    (stored : Nat → BitVec 32) :
    ∃ stored', StoredUpTo count stored' entries ∧
      buildLoop count nCountsMax rows s ((nCountsMax + buildTileEntries - 1) / buildTileEntries) 0 0 stored =
        some (entries, stored') := by
  obtain ⟨tiles, htiles⟩ := h.exists_tiles
  obtain ⟨stored₁, hstored₁, hreach⟩ := h.buildLoop_reach (s := s) stored (Nat.le_refl _)
    (Nat.le_add_right (lastTile entries) (tiles + 1))
  rw [htiles, hreach, Nat.add_sub_cancel_left]
  exact h.buildLoop_last tiles hstored₁ hontime

end

theorem lateThread_order (t u : Nat) : (if u = t then 2 else 0) < if u = t then 3 else 1 := by
  split <;> decide

/-- Thread `t` reads the flag after all others have set it. -/
def FlagSchedule.lateThread (t : Nat) : FlagSchedule where
  readTime _ u := if u = t then 2 else 0
  writeTime _ u := if u = t then 3 else 1
  read_lt_write _ u := lateThread_order t u

/-- If a thread finds a zero, another one may see the flag, and the block does not come to an end. -/
theorem buildLoop_late {u : Nat} (hu : u < blockDim) (ht : t < blockDim) (htpos : t ≠ 0)
    (hne : u ≠ t) (hzero : hasZero count nCountsMax tile u = true) (tiles : Nat)
    (runningTotal : BitVec 32) (stored : Nat → BitVec 32) :
    buildLoop count nCountsMax rows (FlagSchedule.lateThread t) (tiles + 1) tile runningTotal stored = none := by
  have hfirst : seesFlag count nCountsMax (FlagSchedule.lateThread t) tile 0 = false := by
    apply seesFlag_eq_false
    intro v _ _
    dsimp only [FlagSchedule.lateThread]
    rw [if_neg htpos.symm]
    exact Nat.zero_le _
  have hlate : (range blockDim).any (seesFlag count nCountsMax (FlagSchedule.lateThread t) tile) = true := by
    rw [any_eq_true]
    refine ⟨t, mem_range.2 ht, ?_⟩
    rw [seesFlag, any_eq_true]
    refine ⟨u, mem_range.2 hu, ?_⟩
    have horder : (FlagSchedule.lateThread t).writeTime tile u < (FlagSchedule.lateThread t).readTime tile t := by
      dsimp only [FlagSchedule.lateThread]
      rw [if_neg hne, if_pos rfl]
      decide
    rw [hzero, Bool.true_and]
    exact decide_eq_true horder
  rw [buildLoop, hfirst, hlate, if_neg Bool.false_ne_true, if_pos rfl]

end BuildPass

/-! ## What the second pass writes -/

section ExpandPass

variable {α : Type} {count : Nat → Nat} {entries : Nat} {prefixSums : Nat → Nat} {values expected : Nat → α}

theorem exists_entry {row n : Nat} (h : row < rowsBefore count n) :
    ∃ e < n, rowsBefore count e ≤ row ∧ row < rowsBefore count (e + 1) := by
  induction n with
  | zero => exact absurd h (Nat.not_lt_zero _)
  | succ n ih =>
    rcases Nat.lt_or_ge row (rowsBefore count n) with hlt | hge
    · obtain ⟨e, he, hrow⟩ := ih hlt
      exact ⟨e, by omega, hrow⟩
    · exact ⟨n, by omega, hge, h⟩

theorem findEntry_eq (hsums : ∀ k < entries, prefixSums k = rowsBefore count (k + 1))
    {low high row e : Nat} (hlow : low ≤ e) (hhigh : e < high) (hentries : high ≤ entries)
    (hbefore : rowsBefore count e ≤ row) (hbehind : row < rowsBefore count (e + 1)) :
    findEntry prefixSums low high row = e := by
  have hpoint : partitionPoint (fun mid => decide (prefixSums mid ≤ row)) low high = e := by
    apply partitionPoint_eq hlow (Nat.le_of_lt hhigh)
    · intro i _ hi
      have hmono : rowsBefore count (i + 1) ≤ rowsBefore count e := rowsBefore_mono hi
      rw [hsums i (by omega)]
      exact decide_eq_true (by omega)
    · intro i hi hlt
      have hmono : rowsBefore count (e + 1) ≤ rowsBefore count (i + 1) := rowsBefore_mono (by omega)
      rw [hsums i (by omega)]
      exact decide_eq_false (by omega)
  rw [findEntry, hpoint]
  omega

def RowsOfRuns (count : Nat → Nat) (entries : Nat) (values expected : Nat → α) : Prop :=
  ∀ e < entries, ∀ row, rowsBefore count e ≤ row → row < rowsBefore count (e + 1) → values e = expected row

theorem decodeChunkRle_exact (hsums : ∀ k < entries, prefixSums k = rowsBefore count (k + 1))
    (hvalues : RowsOfRuns count entries values expected) {first chunkRows : Nat} (hrows : 0 < chunkRows)
    (hsize : chunkRows ≤ rleRowsPerChunk) (hfirst : first % 32 = 0)
    (hend : first + chunkRows = rowsBefore count entries ∨
      chunkRows = rleRowsPerChunk ∧ first + chunkRows < rowsBefore count entries)
    (htotal : rowsBefore count entries < 2 ^ 32) :
    WritesExactly (decodeChunkRle prefixSums values entries first chunkRows) 0 chunkRows
      fun i => expected (first + i) := by
  have hchunk : rleRowsPerChunk = 2048 := rfl
  have hrounds : chunkRows ≤ valuesPerThread * blockDim := hsize
  obtain ⟨lo, hlo, hlobefore, hlobehind⟩ := exists_entry (show first < rowsBefore count entries by omega)
  obtain ⟨hi, hhi, hhibefore, hhibehind⟩ :=
    exists_entry (show first + chunkRows - 1 < rowsBefore count entries by omega)
  have hlohi : lo ≤ hi := by
    apply Nat.le_of_not_lt
    intro hlt
    have hmono : rowsBefore count (hi + 1) ≤ rowsBefore count lo := rowsBefore_mono hlt
    omega
  have hfindlo := findEntry_eq hsums (Nat.zero_le lo) hlo (Nat.le_refl _) hlobefore hlobehind
  have hfindhi := findEntry_eq hsums hlohi hhi (Nat.le_refl _) hhibefore hhibehind
  -- the run of a row of the chunk is in the interval
  have hfind : ∀ row, first ≤ row → row < first + chunkRows → ∃ e < entries,
      findEntry prefixSums lo (hi + 1) row = e ∧ rowsBefore count e ≤ row ∧ row < rowsBefore count (e + 1) := by
    intro row hge hlt
    obtain ⟨e, he, hbefore, hbehind⟩ := exists_entry (show row < rowsBefore count entries by omega)
    have hle : lo ≤ e := by
      apply Nat.le_of_not_lt
      intro hless
      have hmono : rowsBefore count (e + 1) ≤ rowsBefore count lo := rowsBefore_mono hless
      omega
    have hge' : e < hi + 1 := by
      apply Nat.lt_of_not_le
      intro hless
      have hmono : rowsBefore count (hi + 1) ≤ rowsBefore count e := rowsBefore_mono hless
      omega
    exact ⟨e, he, findEntry_eq hsums hle hge' hhi hbefore hbehind, hbefore, hbehind⟩
  have hlane : ∀ chunkRow, laneRound prefixSums values lo (hi + 1) first chunkRows chunkRow =
      if chunkRow < chunkRows then some (chunkRow, expected (first + chunkRow)) else none := by
    intro chunkRow
    rw [laneRound]
    split
    · rw [if_neg (by omega)]
    · rw [if_pos (by omega)]
      obtain ⟨e, he, heq, hbefore, hbehind⟩ := hfind (first + chunkRow) (by omega) (by omega)
      rw [heq, hvalues e he _ hbefore hbehind]
  have hwarp : ∀ chunkRow, warpRound prefixSums values lo (hi + 1) first chunkRows chunkRow =
      if chunkRow < chunkRows then some (chunkRow, expected (first + chunkRow)) else none := by
    intro chunkRow
    rw [warpRound]
    dsimp only
    split
    · rw [if_neg (by omega)]
    · obtain ⟨e, he, heq, hbefore, hbehind⟩ :=
        hfind (first + (chunkRow - chunkRow % 32)) (by omega) (by omega)
      have hrun : rowsBefore count (e + 1) ≤ rowsBefore count entries := rowsBefore_mono he
      rw [heq, hsums e he, Nat.mod_eq_of_lt (show first + (chunkRow - chunkRow % 32) + 31 < 2 ^ 32 by omega)]
      split
      · -- the run goes on to the last row of the warp, which so is in the chunk
        rw [if_pos (by omega), hvalues e he (first + chunkRow) (by omega) (by omega)]
      · exact hlane chunkRow
  rw [decodeChunkRle, hfindlo, hfindhi]
  simp only [hlane, hwarp, ite_self]
  exact writesExactly_striped hrounds fun i => expected (first + i)

theorem stagedSums_eq (stale : Nat → Nat) (hk : k < entries) :
    stagedSums prefixSums stale entries k = prefixSums k := by
  rw [stagedSums]
  split
  · have hplace := ((writesExactly_strided dim_pos prefixSums).leaves stale _ (List.Perm.refl _)).1 k hk
    rwa [Nat.zero_add] at hplace
  · rfl

variable {sums : Nat → BitVec 32}

theorem expandSegment_eq {size : Nat} (stale : Nat → Nat) (bytes : Memory)
    (rowCount rowOffset : Nat) {entryCount : Nat} (hentries : entryCount ≠ 0) :
    expandSegment size stale bytes rowCount rowOffset entryCount sums =
      overChunks rowCount rowOffset (decodeChunkRle (stagedSums (fun k => (sums k).toNat) stale entryCount)
        (fun k => readElement size bytes (rleHeaderSize + size * k)) entryCount) := by
  rw [expandSegment]
  congr 1
  funext first count
  exact if_neg hentries

theorem overChunks_exact {rows : Nat} {chunk : Nat → Nat → List (Nat × α)} {value : Nat → α} (rowOffset : Nat)
    (h : ∀ first chunkRows, 0 < chunkRows → chunkRows ≤ rleRowsPerChunk → first % 32 = 0 →
      (first + chunkRows = rows ∨ chunkRows = rleRowsPerChunk ∧ first + chunkRows < rows) →
      WritesExactly (chunk first chunkRows) 0 chunkRows fun i => value (first + i)) :
    WritesExactly (overChunks rows rowOffset chunk) rowOffset rows value := by
  have hchunk : rleRowsPerChunk = 2048 := rfl
  rw [overChunks]
  apply WritesExactly.tiles (fun c =>
    if c + 1 < (rows + rleRowsPerChunk - 1) / rleRowsPerChunk then rleRowsPerChunk
    else rows - c * rleRowsPerChunk) rleRowsPerChunk
  · intro c hc
    apply (h _ _ _ _ _ _).shift
    · rw [hchunk] at hc ⊢
      split <;> omega
    · rw [hchunk] at hc ⊢
      split <;> omega
    · rw [hchunk]
      omega
    · rw [hchunk] at *
      split <;> omega
  · intro c hc
    rw [hchunk] at hc ⊢
    split <;> omega
  · intro i hi
    rw [hchunk]
    refine ⟨by omega, ?_⟩
    split <;> omega

theorem decodeChunks_exact (hsums : StoredUpTo count sums entries)
    (hvalues : RowsOfRuns count entries values expected)
    (htotal : rowsBefore count entries < 2 ^ 32) (stale : Nat → Nat) (rowOffset : Nat) :
    WritesExactly
      (overChunks (rowsBefore count entries) rowOffset
        (decodeChunkRle (stagedSums (fun k => (sums k).toNat) stale entries) values entries))
      rowOffset (rowsBefore count entries) expected := by
  apply overChunks_exact
  intro first chunkRows hrows hchunk hfirst hend
  apply decodeChunkRle_exact _ hvalues hrows hchunk hfirst hend htotal
  intro k hk
  have hle : rowsBefore count (k + 1) ≤ rowsBefore count entries := rowsBefore_mono hk
  rw [stagedSums_eq stale hk, hsums k hk, BitVec.toNat_ofNat, Nat.mod_eq_of_lt (by omega)]

end ExpandPass

end Sirius.Native
