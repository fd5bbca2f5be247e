import Mathlib.Tactic.IntervalCases
import Sirius.Native.Rle

/-!
# The run-length format

A segment begins with the offset of the run lengths (8 bytes). The values follow, padded with zeros to a
multiple of 8 bytes, and then the run lengths with two bytes each. How many runs there are is not stored:
the decoder takes as many as there is room for values, padding included, and stops where the lengths add
up to the row count.

Behind the last run it so may read what is no run length. A zero there makes its thread set the flag for
a malformed segment. If no thread reads the flag too late, the decoder gets back the rows anyway, as the
end of the runs is found in the same tile; a thread that does read it late leaves (`rle_decode_iff`).
-/

namespace Sirius.Native

open Lib List

variable {size : Nat}

structure RleRun (size : Nat) where
  value : Element size
  length : Nat
  length_pos : 0 < length
  length_lt : length < 2 ^ 16

def expandRuns (runs : List (RleRun size)) : List (Element size) :=
  runs.flatMap fun r => List.replicate r.length r.value

def expandedRow (runs : List (RleRun size)) (i : Nat) : Element size := (expandRuns runs)[i]?.getD 0

def rleCountOffset (size entries : Nat) : Nat := (rleHeaderSize + entries * size + 7) / 8 * 8

def rleLayout (runs : List (RleRun size)) : List Byte :=
  encode 8 (rleCountOffset size runs.length) ++
    (runs.flatMap (fun r => elementBytes r.value) ++
      (List.replicate (rleCountOffset size runs.length - rleHeaderSize - runs.length * size) 0 ++
        runs.flatMap fun r => encode 2 r.length))

structure HoldsRle (bytes : Memory) (bytesSize : Nat) (runs : List (RleRun size)) : Prop where
  bytes_eq : bytes.load 0 (rleCountOffset size runs.length + 2 * runs.length) = rleLayout runs
  inside : rleCountOffset size runs.length + 2 * runs.length ≤ bytesSize
  bytesSize_lt : bytesSize < 2 ^ 32
  nonempty : runs ≠ []
  entries_le : runs.length ≤ rleBuildMaxEntries
  rows_lt : (expandRuns runs).length < 2 ^ 32

def countsMax (size entries : Nat) : Nat :=
  min ((rleCountOffset size entries - rleHeaderSize) / size) rleBuildMaxEntries

/-! ## Runs and rows -/

def runLength (runs : List (RleRun size)) (i : Nat) : Nat :=
  match runs[i]? with
  | some r => r.length
  | none => 0

section Runs

variable {runs : List (RleRun size)} {r : RleRun size}

theorem rowsBefore_cons (k : Nat) :
    rowsBefore (runLength (r :: runs)) (k + 1) = r.length + rowsBefore (runLength runs) k := by
  rw [rowsBefore, Finset.sum_range_succ', Nat.add_comm]
  rfl

theorem rowsBefore_length : rowsBefore (runLength runs) runs.length = (expandRuns runs).length := by
  induction runs with
  | nil => rfl
  | cons r runs ih =>
    rw [length_cons, rowsBefore_cons, ih, expandRuns, expandRuns, flatMap_cons, length_append,
      length_replicate]

theorem expandedRow_eq {e row : Nat} (hr : runs[e]? = some r) (hbefore : rowsBefore (runLength runs) e ≤ row)
    (hbehind : row < rowsBefore (runLength runs) (e + 1)) : expandedRow runs row = r.value := by
  induction runs generalizing e row with
  | nil => cases hr
  | cons r' runs ih =>
    rw [expandedRow, expandRuns, flatMap_cons]
    rw [rowsBefore_cons] at hbehind
    cases e with
    | zero =>
      rw [getElem?_cons_zero, Option.some.injEq] at hr
      have hlt : row < r.length := by
        rw [hr] at hbehind
        exact hbehind
      rw [hr, getElem?_append_left (by rw [length_replicate]; exact hlt),
        getElem?_replicate_of_lt hlt, Option.getD_some]
    | succ e =>
      rw [rowsBefore_cons] at hbefore
      rw [getElem?_append_right (by rw [length_replicate]; omega), length_replicate]
      exact ih hr (by omega) (by omega)

end Runs

/-! ## What the decoder reads -/

section Holds

variable {bytes : Memory} {bytesSize : Nat} {runs : List (RleRun size)}

theorem rleCountOffset_bounds (hsize : IsElementSize size) (entries : Nat) :
    rleHeaderSize + entries * size ≤ rleCountOffset size entries ∧
      (rleCountOffset size entries - rleHeaderSize) % size = 0 := by
  have hheader : rleHeaderSize = 8 := rfl
  rw [rleCountOffset, hheader]
  rcases hsize with rfl | rfl | rfl | rfl <;> omega

section

variable (h : HoldsRle bytes bytesSize runs)

include h

theorem HoldsRle.length_pos : 0 < runs.length :=
  length_pos_iff.2 h.nonempty

section

variable (hsize : IsElementSize size)

include hsize

theorem HoldsRle.parts :
    bytes.load 0 8 = encode 8 (rleCountOffset size runs.length) ∧
      bytes.load rleHeaderSize (runs.length * size) = runs.flatMap (fun r => elementBytes r.value) ∧
      bytes.load (rleCountOffset size runs.length) (2 * runs.length) = runs.flatMap fun r => encode 2 r.length := by
  have hbounds := rleCountOffset_bounds hsize runs.length
  have hheader : rleHeaderSize = 8 := rfl
  have hvalues : (runs.flatMap fun r => elementBytes r.value).length = runs.length * size := by
    rw [Nat.mul_comm]
    exact Memory.length_flatMap_of_size fun _ _ => length_elementBytes _
  have hcounts : (runs.flatMap fun r => encode 2 r.length).length = 2 * runs.length :=
    Memory.length_flatMap_of_size fun _ _ => length_encode
  obtain ⟨hfirst, hrest⟩ := Memory.load_append h.bytes_eq
  obtain ⟨hsecond, hrest⟩ := Memory.load_append hrest
  obtain ⟨-, hlast⟩ := Memory.load_append hrest
  rw [length_encode] at hfirst
  rw [length_encode, hvalues] at hsecond
  rw [length_encode, hvalues, length_replicate, hcounts] at hlast
  refine ⟨hfirst, hsecond, ?_⟩
  rw [← hlast]
  congr 1
  omega

theorem HoldsRle.parse (rows : Nat) :
    parseRleMetadata { bytes, bytesSize, segmentRowCount := rows, typeSize := size } =
      some { countsOffset := rleCountOffset size runs.length,
             nCountsReal := (rleCountOffset size runs.length - rleHeaderSize) / size } := by
  have hheader : rleHeaderSize = 8 := rfl
  have hpos := h.length_pos
  have hinside := h.inside
  have hlt := h.bytesSize_lt
  obtain ⟨hle, hmod⟩ := rleCountOffset_bounds hsize runs.length
  have hpow : 256 ^ 8 = 2 ^ 64 := by decide
  have hoffset : decode (bytes.load 0 8) = rleCountOffset size runs.length := by
    rw [(h.parts hsize).1, decode_encode, Nat.mod_eq_of_lt (by omega)]
  have hsizepos : 0 < size := by
    rw [IsElementSize] at hsize
    omega
  have hreal : (rleCountOffset size runs.length - rleHeaderSize) / size < 2 ^ 32 :=
    Nat.lt_of_le_of_lt (Nat.div_le_self _ _) (by omega)
  have hlarge : ¬ bytesSize < rleHeaderSize := by omega
  have hrange : ¬ (rleCountOffset size runs.length < rleHeaderSize ∨
      bytesSize ≤ rleCountOffset size runs.length) := by omega
  rw [parseRleMetadata]
  dsimp only
  rw [if_neg hlarge, hoffset, if_neg hrange, if_pos ⟨hsizepos, hmod⟩, Nat.mod_eq_of_lt hreal]

theorem HoldsRle.rleCount_eq {k : Nat} (hk : k < runs.length) :
    rleCount bytes (rleCountOffset size runs.length) k = runLength runs k := by
  have hrun := getElem?_eq_getElem hk
  have hload := Memory.load_flatMap (fun _ _ => length_encode) (h.parts hsize).2.2 hrun
  have hlt : (runs[k]).length < 256 ^ 2 := (runs[k]).length_lt
  rw [rleCount, hload, decode_encode, Nat.mod_eq_of_lt hlt, runLength, hrun]

theorem HoldsRle.value_eq {k : Nat} {r : RleRun size} (hr : runs[k]? = some r) :
    readElement size bytes (rleHeaderSize + size * k) = r.value :=
  readElement_of_load (Memory.load_flatMap (fun _ _ => length_elementBytes _) (h.parts hsize).2.1 hr)

theorem HoldsRle.rowsBefore_eq {k : Nat} (hk : k ≤ runs.length) :
    rowsBefore (rleCount bytes (rleCountOffset size runs.length)) k = rowsBefore (runLength runs) k := by
  apply Finset.sum_congr rfl
  intro i hi
  have hi := Finset.mem_range.1 hi
  exact h.rleCount_eq hsize (by omega)

theorem HoldsRle.rleCount_pos {k : Nat} (hk : k < runs.length) :
    0 < rleCount bytes (rleCountOffset size runs.length) k := by
  rw [h.rleCount_eq hsize hk, runLength, getElem?_eq_getElem hk]
  exact (runs[k]).length_pos

theorem HoldsRle.endsAt :
    EndsAt (rleCount bytes (rleCountOffset size runs.length)) (countsMax size runs.length)
      (expandRuns runs).length runs.length where
  entries_pos := h.length_pos
  entries_le := by
    have hbounds := rleCountOffset_bounds hsize runs.length
    apply Nat.le_min.2
    refine ⟨?_, h.entries_le⟩
    apply (Nat.le_div_iff_mul_le _).2 (by omega)
    rw [IsElementSize] at hsize
    omega
  count_ne_zero i hi := by
    have hlast := (lastTile_le h.length_pos).1
    have hpos := h.rleCount_pos hsize (show i < runs.length by omega)
    omega
  count_lt := rleCount_lt
  before := by
    have hpos := h.length_pos
    have hlast := h.rleCount_pos hsize (Nat.sub_lt hpos Nat.one_pos)
    have hsucc : rowsBefore (rleCount bytes (rleCountOffset size runs.length)) (runs.length - 1 + 1) = _ :=
      rowsBefore_succ _
    rw [Nat.sub_add_cancel hpos, h.rowsBefore_eq hsize (Nat.le_refl _), rowsBefore_length] at hsucc
    omega
  total := by
    rw [h.rowsBefore_eq hsize (Nat.le_refl _), rowsBefore_length]
  rows_lt := h.rows_lt

theorem HoldsRle.rowsOfRuns :
    RowsOfRuns (rleCount bytes (rleCountOffset size runs.length)) runs.length
      (fun k => readElement size bytes (rleHeaderSize + size * k)) (expandedRow runs) := by
  intro e he row hbefore hbehind
  have hrun := getElem?_eq_getElem he
  rw [h.rowsBefore_eq hsize (Nat.le_of_lt he)] at hbefore
  rw [h.rowsBefore_eq hsize he] at hbehind
  dsimp only
  rw [h.value_eq hsize hrun, expandedRow_eq hrun hbefore hbehind]

end

end

/-! ## The rows of a segment -/

/-- A count that is read behind the last run, in the tile of the last run, is not zero. -/
def NoZeroBehind (bytes : Memory) (size entries : Nat) : Prop :=
  ∀ k, entries ≤ k → k < countsMax size entries → k / buildTileEntries = lastTile entries →
    rleCount bytes (rleCountOffset size entries) k ≠ 0

/-- No thread reads the flag after another one has set it. -/
def FlagSchedule.InStep (s : FlagSchedule) : Prop := ∀ tile t u, s.readTime tile t ≤ s.writeTime tile u

/-- The decoder comes to an end and recovers the rows of the runs, and changes no other rows. -/
def RecoversRuns (s : FlagSchedule) (stored : Nat → BitVec 32) (stale : Nat → Nat) (bytes : Memory)
    (bytesSize rowOffset : Nat) (runs : List (RleRun size)) : Prop :=
  ∃ writes, decodeRleSegment size s stored stale bytes bytesSize (expandRuns runs).length rowOffset = some writes ∧
    Leaves writes rowOffset (expandRuns runs).length (expandedRow runs)

section

variable (h : HoldsRle bytes bytesSize runs)

include h

section

variable (hsize : IsElementSize size)

include hsize

theorem HoldsRle.kernelBuildRle_eq (s : FlagSchedule) (stored : Nat → BitVec 32) (rows : Nat) :
    kernelBuildRle s { bytes, bytesSize, segmentRowCount := rows, typeSize := size } stored =
      buildLoop (rleCount bytes (rleCountOffset size runs.length)) (countsMax size runs.length) rows s
        ((countsMax size runs.length + buildTileEntries - 1) / buildTileEntries) 0 0 stored := by
  rw [kernelBuildRle, h.parse hsize]
  rfl

variable {s : FlagSchedule} (hontime : ∀ t < blockDim, ∀ u < blockDim, hasZero (rleCount bytes
  (rleCountOffset size runs.length)) (countsMax size runs.length) (lastTile runs.length) u = true →
  s.readTime (lastTile runs.length) t ≤ s.writeTime (lastTile runs.length) u)

include hontime in
/-- The first pass, if no thread sees the flag in the tile of the last run. -/
theorem HoldsRle.build (stored : Nat → BitVec 32) :
    ∃ stored', StoredUpTo (rleCount bytes (rleCountOffset size runs.length)) stored' runs.length ∧
      kernelBuildRle s
          { bytes, bytesSize, segmentRowCount := (expandRuns runs).length, typeSize := size } stored =
        some (runs.length, stored') := by
  rw [h.kernelBuildRle_eq hsize]
  exact (h.endsAt hsize).buildLoop_eq hontime stored

theorem HoldsRle.expandSegment_exact {sums : Nat → BitVec 32}
    (hsums : StoredUpTo (rleCount bytes (rleCountOffset size runs.length)) sums runs.length)
    (stale : Nat → Nat) (rowOffset : Nat) :
    WritesExactly
      (expandSegment size stale bytes (expandRuns runs).length rowOffset runs.length sums)
      rowOffset (expandRuns runs).length (expandedRow runs) := by
  have hends := h.endsAt hsize
  have hlt := hends.rows_lt
  rw [← hends.total] at hlt ⊢
  rw [expandSegment_eq stale bytes _ rowOffset (Nat.ne_of_gt hends.entries_pos)]
  exact decodeChunks_exact hsums (h.rowsOfRuns hsize) hlt stale rowOffset

theorem HoldsRle.rows_ne_zero : (expandRuns runs).length ≠ 0 := by
  have hbefore := (h.endsAt hsize).before
  omega

include hontime in
/-- Both passes, if no thread sees the flag in the tile of the last run. -/
theorem HoldsRle.recovers (stored : Nat → BitVec 32) (stale : Nat → Nat) (rowOffset : Nat) :
    RecoversRuns s stored stale bytes bytesSize rowOffset runs := by
  obtain ⟨sums, hsums, hbuild⟩ := h.build hsize hontime stored
  refine ⟨expandSegment size stale bytes (expandRuns runs).length rowOffset runs.length sums, ?_, ?_⟩
  · rw [decodeRleSegment, if_neg (h.rows_ne_zero hsize), hbuild, Option.map_some]
  · exact (h.expandSegment_exact hsize hsums stale rowOffset).leaves

end

end

/-- **A segment is decoded to the rows of its runs** in every schedule where no thread reads the flag too
late; and in all schedules iff no count behind the last run, in its tile, is zero. -/
theorem rle_decode_iff (hsize : IsElementSize size) (h : HoldsRle bytes bytesSize runs)
    (stored : Nat → BitVec 32) (stale : Nat → Nat) (rowOffset : Nat) :
    ((∀ s, RecoversRuns s stored stale bytes bytesSize rowOffset runs) ↔
        NoZeroBehind bytes size runs.length) ∧
      ∀ s : FlagSchedule, s.InStep → RecoversRuns s stored stale bytes bytesSize rowOffset runs := by
  have hends := h.endsAt hsize
  obtain ⟨hdim, hvalues, hentries⟩ := tile_sizes
  obtain ⟨hfirst, hend⟩ := lastTile_le hends.entries_pos
  refine ⟨⟨?_, ?_⟩, ?_⟩
  · intro hall k hk hmax htile hzero
    -- the thread of the zero sets the flag, and another one sees it
    have hin : lastTile runs.length * buildTileEntries + k % buildTileEntries = k := by
      rw [← htile]
      exact Nat.div_add_mod' k buildTileEntries
    obtain ⟨j, hj⟩ : ∃ j, j = k % buildTileEntries := ⟨_, rfl⟩
    rw [← hj] at hin
    have hjlt : j < buildTileEntries := by
      rw [hj]
      exact Nat.mod_lt k (by decide)
    have hset : hasZero (rleCount bytes (rleCountOffset size runs.length)) (countsMax size runs.length)
        (lastTile runs.length) (j / valuesPerThread) = true := by
      apply hasZero_eq_true.2
      refine ⟨j, rfl, ?_, by omega⟩
      rw [tileCount_eq_zero hends.count_lt (by omega), hin]
      exact hzero
    obtain ⟨t, ht, htpos, hne⟩ : ∃ t < blockDim, t ≠ 0 ∧ j / valuesPerThread ≠ t := by
      rcases Nat.decEq (j / valuesPerThread) 1 with hne | heq
      · exact ⟨1, by omega, by omega, hne⟩
      · exact ⟨2, by omega, by omega, by omega⟩
    obtain ⟨writes, hwrites, -⟩ := hall (FlagSchedule.lateThread t)
    obtain ⟨tiles, htiles⟩ := hends.exists_tiles
    rw [decodeRleSegment, if_neg (h.rows_ne_zero hsize), h.kernelBuildRle_eq hsize, htiles] at hwrites
    obtain ⟨stored₁, -, hreach⟩ := hends.buildLoop_reach (s := FlagSchedule.lateThread t) stored (Nat.le_refl _)
      (Nat.le_add_right (lastTile runs.length) (tiles + 1))
    rw [hreach, Nat.add_sub_cancel_left,
      buildLoop_late (by rw [hvalues]; omega) ht htpos hne hset] at hwrites
    cases hwrites
  · intro hno s
    apply h.recovers hsize
    intro t _ u hu hzero
    -- a zero in the tile is behind the last run
    obtain ⟨j, hj, hcount, hlt⟩ := hasZero_eq_true.1 hzero
    rw [tileCount_eq_zero hends.count_lt (by omega)] at hcount
    rw [hvalues] at hj
    have hbehind : runs.length ≤ lastTile runs.length * buildTileEntries + j := by
      apply Nat.le_of_not_lt
      intro hless
      have hpos := h.rleCount_pos hsize hless
      omega
    have htile : (lastTile runs.length * buildTileEntries + j) / buildTileEntries = lastTile runs.length := by
      rw [hentries]
      omega
    exact absurd hcount (hno _ hbehind (by omega) htile)
  · intro s hstep
    apply h.recovers hsize
    intro t _ u _ _
    exact hstep _ t u

theorem holdsRle_store {m : Memory} (hsize : IsElementSize size)
    (hinside : rleCountOffset size runs.length + 2 * runs.length ≤ bytesSize) (hlt : bytesSize < 2 ^ 32)
    (hnonempty : runs ≠ []) (hentries : runs.length ≤ rleBuildMaxEntries)
    (hrows : (expandRuns runs).length < 2 ^ 32) :
    HoldsRle (m.store 0 (rleLayout runs)) bytesSize runs where
  bytes_eq := by
    have hbounds := rleCountOffset_bounds hsize runs.length
    have hheader : rleHeaderSize = 8 := rfl
    have hvalues : (runs.flatMap fun r => elementBytes r.value).length = size * runs.length :=
      Memory.length_flatMap_of_size fun _ _ => length_elementBytes _
    have hcounts : (runs.flatMap fun r => encode 2 r.length).length = 2 * runs.length :=
      Memory.length_flatMap_of_size fun _ _ => length_encode
    have hlength : (rleLayout runs).length = rleCountOffset size runs.length + 2 * runs.length := by
      rw [rleLayout, length_append, length_append, length_append, length_encode, hvalues, hcounts,
        length_replicate, Nat.mul_comm size]
      omega
    rw [← hlength, Memory.load_store_self]
  inside := hinside
  bytesSize_lt := hlt
  nonempty := hnonempty
  entries_le := hentries
  rows_lt := hrows

def fiveRun : RleRun 1 where
  value := 5
  length := 1
  length_pos := Nat.one_pos
  length_lt := Nat.lt_of_sub_eq_succ rfl

/-- One run has seven bytes of padding. With counts other than zero behind it, all is well. -/
theorem rle_decode_one :
    RecoversRuns (.lateThread 0) (fun _ => 0) (fun _ => 0)
      (Memory.store (fun _ => 1) 0 (rleLayout [fiveRun])) 64 7 [fiveRun] :=
  (rle_decode_iff (.inl rfl) (holdsRle_store (.inl rfl) (by decide) (by decide) (by decide) (by decide)
    (by decide)) _ _ _).1.2 (by
      intro k hk hmax _
      have hle : k < 8 := hmax
      interval_cases k <;> decide) _

/-- Nine runs, of which the ninth is in the second thread, and zeros behind them. If thread 0 reads the
flag late, the rows are zero. -/
theorem rle_decode_late :
    HoldsRle (Memory.store (fun _ => 0) 0 (rleLayout (List.replicate 9 fiveRun))) 64
        (List.replicate 9 fiveRun) ∧
      expandedRow (List.replicate 9 fiveRun) 0 = 5 ∧
      decodeRleSegment 1 (FlagSchedule.lateThread 0) (fun _ => 0) (fun _ => 0)
          (Memory.store (fun _ => 0) 0 (rleLayout (List.replicate 9 fiveRun))) 64 9 0 =
        some [(0, 0), (1, 0), (2, 0), (3, 0), (4, 0), (5, 0), (6, 0), (7, 0), (8, 0)] :=
  ⟨holdsRle_store (.inl rfl) (by decide) (by decide) (by decide) (by decide) (by decide), rfl, by decide +kernel⟩

end Holds

end Sirius.Native
