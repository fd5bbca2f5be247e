import Sirius.Native.Rle

/-!
# Reads of the run-length decoder

The decoder is given any bytes here. How many counts it takes is computed from the size of the values
region, and not compared with the size of the counts region, so it may read counts behind the segment. If
the values region cannot be divided into values, it is the other way round, and values behind the segment
may be read. A count of zero in a tile sets the flag that the threads of the block read without a barrier,
so that some of them may leave while the others wait for them, and then nothing is written at all.

`rle_safe_iff` says when none of this happens. Then the rows are zero if the counts do not come to the row
count.
-/

namespace Sirius.Native

open Lib List

/-! ## Reads -/

def RleParsedMetadata.nCountsMax (md : RleParsedMetadata) : Nat := min md.nCountsReal rleBuildMaxEntries

/-- What the first pass reads of the counts, as addresses with numbers of bytes. Segments without rows are
left out. -/
def countReads (desc : RleSegmentDesc) : List (Nat × Nat) :=
  match parseRleMetadata desc with
  | none => []
  | some md =>
    if desc.segmentRowCount = 0 then []
    else
      -- a tile is loaded if the loop has gone on after all tiles before
      ((List.range ((md.nCountsMax + buildTileEntries - 1) / buildTileEntries)).filter fun tile =>
        (List.range tile).all (goesOn (rleCount desc.bytes md.countsOffset) md.nCountsMax
          desc.segmentRowCount)).map fun tile =>
        (md.countsOffset + 2 * (tile * buildTileEntries),
          2 * (min md.nCountsMax ((tile + 1) * buildTileEntries) - tile * buildTileEntries))

/-- The rows of the segment with the entries whose values the second pass reads for them. -/
def valueEntries (stale : Nat → Nat) (rowCount entryCount : Nat) (sums : Nat → BitVec 32) : List (Nat × Nat) :=
  if entryCount = 0 then []
  else overChunks rowCount 0 (decodeChunkRle (stagedSums (fun k => (sums k).toNat) stale entryCount) id entryCount)

/-- All reads are inside of the segment. In every schedule the first pass comes to an end, and if the
counts do not come to the row count, the decoder then writes zeros to the rows of the segment. -/
def RleSafe (desc : RleSegmentDesc) : Prop :=
  (∀ r ∈ countReads desc, r.1 + r.2 ≤ desc.bytesSize) ∧
    ∀ s stored stale, desc.segmentRowCount ≠ 0 → ∃ entryCount sums,
      kernelBuildRle s desc stored = some (entryCount, sums) ∧
      (∀ w ∈ valueEntries stale desc.segmentRowCount entryCount sums,
        rleHeaderSize + desc.typeSize * w.2 + desc.typeSize ≤ desc.bytesSize) ∧
      ((∀ md, parseRleMetadata desc = some md → ∀ k < md.nCountsMax,
          rowsBefore (rleCount desc.bytes md.countsOffset) (k + 1) ≠ desc.segmentRowCount) →
        ∀ rowOffset, WritesExactly
          (expandSegment desc.typeSize stale desc.bytes desc.segmentRowCount rowOffset entryCount sums)
          rowOffset desc.segmentRowCount fun _ => 0)

/-- The counts are inside for each tile that no entry before stops, and the value of the entry that comes
to the row count is inside. -/
def RleFits (desc : RleSegmentDesc) (md : RleParsedMetadata) : Prop :=
  (∀ tile, tile * buildTileEntries < md.nCountsMax →
      (∀ e < tile * buildTileEntries, ¬ Stops (rleCount desc.bytes md.countsOffset) desc.segmentRowCount e) →
      md.countsOffset + 2 * min md.nCountsMax ((tile + 1) * buildTileEntries) ≤ desc.bytesSize) ∧
    ∀ entries, EndsAt (rleCount desc.bytes md.countsOffset) md.nCountsMax desc.segmentRowCount entries →
      rleHeaderSize + desc.typeSize * entries ≤ desc.bytesSize

/-- A tile that no entry before stops has no count of zero. -/
def NoZeroReached (count : Nat → Nat) (nCountsMax rows : Nat) : Prop :=
  ∀ e < nCountsMax, (∀ e' < e / buildTileEntries * buildTileEntries, ¬ Stops count rows e') → count e ≠ 0

/-! ## The loop on any counts -/

section Loop

variable {count : Nat → Nat} {nCountsMax rows : Nat} {s : FlagSchedule}

theorem tile_lt_iff {tile : Nat} : tile < (nCountsMax + buildTileEntries - 1) / buildTileEntries ↔
    tile * buildTileEntries < nCountsMax := by
  have hentries : buildTileEntries = 2048 := rfl
  rw [hentries]
  omega

section

variable (hcount : ∀ i, count i < 2 ^ 16)

include hcount

/-- The loop goes on after the tiles up to an entry iff no entry before stops it. -/
theorem forall_goesOn_iff {tile : Nat} (hlt : tile * buildTileEntries < nCountsMax) :
    (∀ t < tile, goesOn count nCountsMax rows t = true) ↔
      ∀ e < tile * buildTileEntries, ¬ Stops count rows e := by
  constructor
  · intro h e he
    have heq := Nat.div_add_mod' e buildTileEntries
    have hmod : e % buildTileEntries < buildTileEntries := Nat.mod_lt e (by decide)
    have hnot := (goesOn_iff hcount).1 (h _ (Nat.div_lt_of_lt_mul (Nat.mul_comm _ tile ▸ he))) _ hmod (by omega)
    rwa [heq] at hnot
  · intro h t ht
    apply (goesOn_iff hcount).2
    intro j hj _
    have hle := Nat.mul_le_mul_right buildTileEntries (Nat.succ_le_of_lt ht)
    rw [Nat.succ_mul] at hle
    exact h _ (by omega)

theorem quiet_succ {tile : Nat} (hnext : (tile + 1) * buildTileEntries < nCountsMax)
    (hquiet : ∀ e < tile * buildTileEntries, ¬ Stops count rows e)
    (hon : goesOn count nCountsMax rows tile = true) :
    ∀ e < (tile + 1) * buildTileEntries, ¬ Stops count rows e := by
  have hentries : buildTileEntries = 2048 := rfl
  have hsucc := tile_succ tile
  intro e he
  rcases Nat.lt_or_ge e (tile * buildTileEntries) with hbefore | hin
  · exact hquiet e hbefore
  · have hnot := (goesOn_iff hcount).1 hon (e - tile * buildTileEntries) (by omega) (by omega)
    rwa [Nat.add_sub_cancel' hin] at hnot

theorem rowsBefore_lt_of_quiet (hpos : 0 < rows) (hsmall : rows ≤ 2 ^ 31) {n : Nat}
    (h : ∀ e < n, ¬ Stops count rows e) : rowsBefore count n < rows := by
  induction n with
  | zero => exact hpos
  | succ n ih =>
    have hlt := ih fun e he => h e (by omega)
    have hnot := h n (Nat.lt_succ_self n)
    have hc := hcount n
    rw [Stops, rowsBefore_succ] at hnot
    rw [rowsBefore_succ]
    omega

theorem rowsBefore_add_le (m n : Nat) :
    rowsBefore count (m + n) ≤ rowsBefore count m + n * 65535 := by
  induction n with
  | zero => exact Nat.le_refl _
  | succ n ih =>
    have hc := hcount (m + n)
    rw [← Nat.add_assoc, rowsBefore_succ]
    omega

/-- A sum in the tile behind quiet ones that is the row count in 32 bits is the row count. The total of all
counts is less than two times the range of the sums, so a large row count is only reached once. -/
theorem rowsBefore_of_mod (hmax : nCountsMax ≤ rleBuildMaxEntries) (hpos : 0 < rows) {n k : Nat}
    (hquiet : ∀ e < n, ¬ Stops count rows e) (hk : k ≤ n + buildTileEntries) (hle : k ≤ nCountsMax)
    (hmod : rowsBefore count k % 2 ^ 32 = rows) : rowsBefore count k = rows := by
  have hentries : buildTileEntries = 2048 := rfl
  have hbuild : rleBuildMaxEntries = 90112 := rfl
  rcases Nat.le_total rows (2 ^ 31) with hsmall | hlarge
  · have hbefore := rowsBefore_lt_of_quiet hcount hpos hsmall hquiet
    have hmono : rowsBefore count k ≤ rowsBefore count (n + 2048) := rowsBefore_mono hk
    have hadd := rowsBefore_add_le hcount n 2048
    omega
  · have hadd := rowsBefore_add_le hcount 0 k
    have hzero : rowsBefore count 0 = 0 := rfl
    rw [Nat.zero_add] at hadd
    omega

/-- **What the first pass returns**, in any schedule: the segment is malformed, or the counts come to the
row count with the last entry. -/
theorem buildLoop_sound (hmax : nCountsMax ≤ rleBuildMaxEntries) (hpos : 0 < rows)
    {tiles tile k : Nat} {stored sums : Nat → BitVec 32}
    (htiles : tile + tiles = (nCountsMax + buildTileEntries - 1) / buildTileEntries)
    (hstored : StoredUpTo count stored (tile * buildTileEntries))
    (hquiet : ∀ e < tile * buildTileEntries, ¬ Stops count rows e)
    (h : buildLoop count nCountsMax rows s tiles tile (totalBefore count tile) stored = some (k, sums)) :
    k = 0 ∨ k ≤ nCountsMax ∧ rowsBefore count k = rows ∧ StoredUpTo count sums k ∧
      ∀ e < lastTile k * buildTileEntries, count e ≠ 0 := by
  obtain ⟨hdim, hvalues, hentries⟩ := tile_sizes
  induction tiles generalizing tile stored with
  | zero =>
    cases h
    exact .inl rfl
  | succ tiles ih =>
    have hfirst : tile * buildTileEntries < nCountsMax := tile_lt_iff.1 (by omega)
    have hsucc := tile_succ tile
    rw [buildLoop_succ] at h
    split at h
    · cases h
      exact .inl rfl
    · split at h
      · cases h
      · split at h
        · -- a thread has found the row count
          rename_i j hmin
          cases h
          obtain ⟨found, hmem, hfst⟩ := mem_filterMap.1 (min?_mem hmin)
          obtain ⟨t, ht, rfl⟩ := mem_map.1 hmem
          obtain ⟨hj, hcurrent, hsum⟩ := threadMatch_sound hfst
          have ht := mem_range.1 ht
          rw [mem_threadEntries, hvalues] at hj
          rw [toNat_sumsOfTile (by omega)] at hsum
          refine .inr ⟨by omega, ?_, hstored.storeTile (by omega) (by omega), ?_⟩
          · exact rowsBefore_of_mod hcount hmax hpos hquiet (by omega) (by omega) hsum
          · have htile : lastTile (tile * buildTileEntries + j + 1) = tile := by
              rw [lastTile, hentries]
              omega
            rw [htile]
            exact fun e he hzero => hquiet e he (.inl hzero)
        next hnone =>
          split at h
          · cases h
            exact .inl rfl
          next hfine =>
            rcases Nat.eq_zero_or_pos tiles with rfl | htilespos
            · cases h
              exact .inl rfl
            · have hon := goesOn_eq_true.2 ⟨hnone, Bool.not_eq_true _ ▸ hfine⟩
              have hnext : (tile + 1) * buildTileEntries < nCountsMax := tile_lt_iff.1 (by omega)
              rw [sumsOfTile_last (Nat.le_of_lt hnext)] at h
              exact ih (by omega) (hstored.storeTile (Nat.le_of_lt hnext) (Nat.le_refl _))
                (quiet_succ hcount hnext hquiet hon) h

/-- **The first pass comes to an end** in every schedule if it reaches no count of zero. -/
theorem exists_buildLoop (hzero : NoZeroReached count nCountsMax rows) {tiles tile : Nat}
    (htiles : tile + tiles = (nCountsMax + buildTileEntries - 1) / buildTileEntries)
    (hquiet : ∀ e < tile * buildTileEntries, ¬ Stops count rows e) (stored : Nat → BitVec 32) :
    ∃ result, buildLoop count nCountsMax rows s tiles tile (totalBefore count tile) stored =
      some result := by
  obtain ⟨hdim, hvalues, hentries⟩ := tile_sizes
  induction tiles generalizing tile stored with
  | zero => exact ⟨_, rfl⟩
  | succ tiles ih =>
    have hsucc := tile_succ tile
    have hnozero : ∀ u < blockDim, hasZero count nCountsMax tile u = false := by
      intro u hu
      apply Bool.eq_false_iff.2
      intro htrue
      obtain ⟨j, hj, hcount0, hlt⟩ := hasZero_eq_true.1 htrue
      rw [hvalues] at hj
      have htile : (tile * buildTileEntries + j) / buildTileEntries = tile := by
        rw [hentries]
        omega
      exact hzero _ (by omega) (by rw [htile]; exact hquiet)
        ((tileCount_eq_zero hcount (by omega)).1 hcount0)
    have hnobody : seesFlag count nCountsMax s tile 0 = false ∧ _ := nobody_sees fun t _ u hu htrue =>
      absurd htrue (by rw [hnozero u hu]; exact Bool.false_ne_true)
    rw [buildLoop_succ, hnobody.1, hnobody.2, if_neg Bool.false_ne_true, if_neg Bool.false_ne_true]
    split
    · exact ⟨_, rfl⟩
    next hnone =>
      split
      · exact ⟨_, rfl⟩
      next hfine =>
        rcases Nat.eq_zero_or_pos tiles with rfl | htilespos
        · exact ⟨_, rfl⟩
        · have hon := goesOn_eq_true.2 ⟨hnone, Bool.not_eq_true _ ▸ hfine⟩
          have hnext : (tile + 1) * buildTileEntries < nCountsMax := tile_lt_iff.1 (by omega)
          rw [sumsOfTile_last (Nat.le_of_lt hnext)]
          exact ih (by omega) (quiet_succ hcount hnext hquiet hon) _

/-- The loop reaches every tile that no entry before stops. -/
theorem exists_buildLoop_reach {tile tiles : Nat} (hlt : tile * buildTileEntries < nCountsMax)
    (hquiet : ∀ e < tile * buildTileEntries, ¬ Stops count rows e) (htiles : tile ≤ tiles)
    (stored : Nat → BitVec 32) :
    ∃ stored', buildLoop count nCountsMax rows s tiles 0 0 stored =
      buildLoop count nCountsMax rows s (tiles - tile) tile (totalBefore count tile) stored' := by
  induction tile with
  | zero => exact ⟨stored, by rw [totalBefore, Nat.zero_mul, Nat.sub_zero]; rfl⟩
  | succ tile ih =>
    have hsucc := tile_succ tile
    obtain ⟨stored', heq⟩ := ih (by omega) (fun e he => hquiet e (by omega)) (by omega)
    refine ⟨_, heq.trans (.trans ?_
      (buildLoop_of_quiet hcount (Nat.le_of_lt hlt) hquiet (tiles - (tile + 1)) stored'))⟩
    congr 1
    omega

/-- A count of zero that is reached leaves the block without an end in some schedule. -/
theorem exists_buildLoop_eq_none {e : Nat} (he : e < nCountsMax) (hzero : count e = 0)
    (hquiet : ∀ e' < e / buildTileEntries * buildTileEntries, ¬ Stops count rows e')
    (stored : Nat → BitVec 32) :
    ∃ s, buildLoop count nCountsMax rows s ((nCountsMax + buildTileEntries - 1) / buildTileEntries) 0 0
      stored = none := by
  obtain ⟨hdim, hvalues, hentries⟩ := tile_sizes
  obtain ⟨tile, htile⟩ : ∃ tile, tile = e / buildTileEntries := ⟨_, rfl⟩
  rw [← htile] at hquiet
  have hlt : tile * buildTileEntries < nCountsMax := by
    rw [hentries] at htile ⊢
    omega
  -- the thread of the entry sets the flag, and a third one is late
  obtain ⟨j, hj⟩ : ∃ j, e = tile * buildTileEntries + j ∧ j < buildTileEntries :=
    ⟨e % buildTileEntries, by rw [hentries] at htile ⊢; omega⟩
  obtain ⟨t, ht, htpos, hne⟩ : ∃ t, t < blockDim ∧ t ≠ 0 ∧ j / valuesPerThread ≠ t := by
    by_cases hone : j / valuesPerThread = 1
    · exact ⟨2, by decide, by decide, by omega⟩
    · exact ⟨1, by decide, by decide, hone⟩
  have hthread : j / valuesPerThread < blockDim := by
    rw [hvalues]
    omega
  have hsets : hasZero count nCountsMax tile (j / valuesPerThread) = true :=
    hasZero_eq_true.2 ⟨j, rfl, (tileCount_eq_zero hcount (by omega)).2 (hj.1 ▸ hzero), by omega⟩
  have htiles := tile_lt_iff.2 hlt
  obtain ⟨stored', hreach⟩ := exists_buildLoop_reach hcount (s := .lateThread t) hlt hquiet
    (Nat.le_of_lt htiles) stored
  obtain ⟨tiles, hsucc⟩ := Nat.exists_eq_add_of_lt htiles
  refine ⟨.lateThread t, hreach.trans ?_⟩
  rw [hsucc, show tile + tiles + 1 - tile = tiles + 1 by omega]
  exact buildLoop_late hthread ht htpos hne hsets tiles _ stored'

end

end Loop

/-! ## The entries of the rows -/

section Entries

variable {count : Nat → Nat} {entries : Nat}

def entryOf (count : Nat → Nat) (entries row : Nat) : Nat :=
  findEntry (fun k => rowsBefore count (k + 1)) 0 entries row

theorem rowsOfRuns_entryOf : RowsOfRuns count entries id (entryOf count entries) := fun e he _ hbefore hbehind =>
  (findEntry_eq (fun _ _ => rfl) (Nat.zero_le e) he (Nat.le_refl _) hbefore hbehind).symm

theorem entryOf_spec {row : Nat} (h : row < rowsBefore count entries) :
    entryOf count entries row < entries ∧ rowsBefore count (entryOf count entries row) ≤ row ∧
      row < rowsBefore count (entryOf count entries row + 1) := by
  obtain ⟨e, he, hbefore, hbehind⟩ := exists_entry h
  have heq : e = entryOf count entries row := rowsOfRuns_entryOf e he row hbefore hbehind
  exact heq ▸ ⟨he, hbefore, hbehind⟩

theorem exists_endsAt {nCountsMax rows row : Nat} (hcount : ∀ i, count i < 2 ^ 16) (hrows : rows < 2 ^ 32)
    (hentries : entries ≤ nCountsMax) (htotal : rowsBefore count entries = rows)
    (hne : ∀ e < lastTile entries * buildTileEntries, count e ≠ 0) (hrow : row < rows) :
    ∃ last, EndsAt count nCountsMax rows last ∧ entryOf count entries row < last := by
  obtain ⟨-, hbefore, -⟩ := entryOf_spec (htotal ▸ hrow)
  obtain ⟨last, hlast, hlastbefore, hlastbehind⟩ := exists_entry
    (show rows - 1 < rowsBefore count entries by omega)
  have hmono : rowsBefore count (last + 1) ≤ rowsBefore count entries := rowsBefore_mono hlast
  refine ⟨last + 1, ⟨Nat.succ_pos last, by omega, fun i hi => hne i (Nat.lt_of_lt_of_le hi ?_), hcount, ?_,
    by omega, hrows⟩, ?_⟩
  · exact Nat.mul_le_mul_right _ (Nat.div_le_div_right (by omega))
  · rw [Nat.add_sub_cancel]
    omega
  · apply Nat.lt_of_not_le
    intro hle
    have hmono : rowsBefore count (last + 1) ≤ rowsBefore count (entryOf count entries row) := rowsBefore_mono hle
    omega

theorem valueEntries_exact {sums : Nat → BitVec 32} (hsums : StoredUpTo count sums entries)
    (htotal : rowsBefore count entries < 2 ^ 32) (hentries : entries ≠ 0) (stale : Nat → Nat) :
    WritesExactly (valueEntries stale (rowsBefore count entries) entries sums) 0 (rowsBefore count entries)
      (entryOf count entries) := by
  rw [valueEntries, if_neg hentries]
  exact decodeChunks_exact hsums rowsOfRuns_entryOf htotal stale 0

theorem valueEntries_zero {stale : Nat → Nat} {rows : Nat} {sums : Nat → BitVec 32} {w : Nat × Nat} :
    w ∉ valueEntries stale rows 0 sums := not_mem_nil

theorem expandSegment_zero (size : Nat) (stale : Nat → Nat) (bytes : Memory) (rows rowOffset : Nat)
    (sums : Nat → BitVec 32) :
    WritesExactly (expandSegment size stale bytes rows rowOffset 0 sums) rowOffset rows fun _ => 0 := by
  show WritesExactly (overChunks rows rowOffset fun _ chunkRows => zeroWrites size chunkRows) rowOffset rows _
  apply overChunks_exact
  intro first chunkRows _ _ _ _
  exact zeroWrites_exact size chunkRows

end Entries

/-! ## When the reads are inside -/

def FlagSchedule.together : FlagSchedule where
  readTime _ _ := 0
  writeTime _ _ := 1
  read_lt_write _ _ := Nat.one_pos

section Safe

variable {desc : RleSegmentDesc} {md : RleParsedMetadata}

theorem kernelBuildRle_some (hmd : parseRleMetadata desc = some md) (s : FlagSchedule)
    (stored : Nat → BitVec 32) :
    kernelBuildRle s desc stored =
      buildLoop (rleCount desc.bytes md.countsOffset) md.nCountsMax desc.segmentRowCount s
        ((md.nCountsMax + buildTileEntries - 1) / buildTileEntries) 0 0 stored := by
  rw [kernelBuildRle, hmd]
  rfl

theorem mem_countReads (hmd : parseRleMetadata desc = some md) (hrows : desc.segmentRowCount ≠ 0)
    {r : Nat × Nat} : r ∈ countReads desc ↔ ∃ tile, tile * buildTileEntries < md.nCountsMax ∧
      (∀ e < tile * buildTileEntries, ¬ Stops (rleCount desc.bytes md.countsOffset) desc.segmentRowCount e) ∧
      (md.countsOffset + 2 * (tile * buildTileEntries),
        2 * (min md.nCountsMax ((tile + 1) * buildTileEntries) - tile * buildTileEntries)) = r := by
  rw [countReads, hmd]
  dsimp only
  rw [if_neg hrows, mem_map]
  simp only [mem_filter, mem_range, all_eq_true]
  constructor
  · rintro ⟨tile, ⟨htile, hon⟩, rfl⟩
    have hlt := tile_lt_iff.1 htile
    exact ⟨tile, hlt, (forall_goesOn_iff rleCount_lt hlt).1 hon, rfl⟩
  · rintro ⟨tile, hlt, hquiet, rfl⟩
    exact ⟨tile, ⟨tile_lt_iff.2 hlt, (forall_goesOn_iff rleCount_lt hlt).2 hquiet⟩, rfl⟩

theorem RleFits.safe
    (hfits : ∀ md, parseRleMetadata desc = some md → RleFits desc md ∧
      NoZeroReached (rleCount desc.bytes md.countsOffset) md.nCountsMax desc.segmentRowCount)
    (hrows : desc.segmentRowCount < 2 ^ 32) (hpos : desc.segmentRowCount ≠ 0) : RleSafe desc := by
  rcases hparse : parseRleMetadata desc with - | md
  · refine ⟨fun r hr => ?_, fun s stored stale _ => ?_⟩
    · rw [countReads, hparse] at hr
      cases hr
    · refine ⟨0, stored, by rw [kernelBuildRle, hparse], ?_⟩
      exact ⟨fun w hw => absurd hw valueEntries_zero, fun _ rowOffset => expandSegment_zero ..⟩
  · obtain ⟨h, hzero⟩ := hfits md hparse
    refine ⟨fun r hr => ?_, fun s stored stale _ => ?_⟩
    · obtain ⟨tile, hlt, hquiet, rfl⟩ := (mem_countReads hparse hpos).1 hr
      have hle := h.1 tile hlt hquiet
      have hsucc := tile_succ tile
      dsimp only
      omega
    · obtain ⟨⟨entryCount, sums⟩, hbuild⟩ := exists_buildLoop rleCount_lt hzero (s := s) (Nat.zero_add _)
        (fun e he => absurd he (by omega)) stored
      refine ⟨entryCount, sums, (kernelBuildRle_some hparse s stored).trans hbuild, ?_⟩
      rcases buildLoop_sound rleCount_lt (Nat.min_le_right _ _) (Nat.pos_of_ne_zero hpos) (Nat.zero_add _)
        (fun i hi => absurd hi (by omega)) (fun e he => absurd he (by omega)) hbuild with
        rfl | ⟨hle, htotal, hstored, hne⟩
      · exact ⟨fun w hw => absurd hw valueEntries_zero, fun _ rowOffset => expandSegment_zero ..⟩
      · have hzero : entryCount ≠ 0 := by
          rintro rfl
          exact hpos htotal.symm
        refine ⟨fun w hw => ?_, fun hno => ?_⟩
        · have hexact := valueEntries_exact hstored (htotal ▸ hrows) hzero stale
          rw [htotal] at hexact
          obtain ⟨row, hrow, -, hentry⟩ := hexact.only w.1 w.2 hw
          obtain ⟨last, hends, hlt⟩ := exists_endsAt rleCount_lt hrows hle htotal hne hrow
          have hfit := h.2 last hends
          have hmul := Nat.mul_le_mul_left desc.typeSize (Nat.succ_le_of_lt hlt)
          rw [Nat.mul_succ] at hmul
          rw [hentry]
          omega
        · have hlt : entryCount - 1 < md.nCountsMax := Nat.lt_of_lt_of_le (Nat.sub_one_lt hzero) hle
          have hnot := hno md hparse (entryCount - 1) hlt
          rw [Nat.sub_add_cancel (by omega)] at hnot
          exact absurd htotal hnot

theorem RleSafe.noZeroReached (h : RleSafe desc) (hpos : desc.segmentRowCount ≠ 0)
    (hmd : parseRleMetadata desc = some md) :
    NoZeroReached (rleCount desc.bytes md.countsOffset) md.nCountsMax desc.segmentRowCount := by
  intro e he hquiet hzero
  obtain ⟨s, hnone⟩ := exists_buildLoop_eq_none rleCount_lt he hzero hquiet fun _ => 0
  obtain ⟨entryCount, sums, hbuild, -⟩ := h.2 s (fun _ => 0) (fun _ => 0) hpos
  rw [kernelBuildRle_some hmd, hnone] at hbuild
  cases hbuild

theorem RleSafe.fits (h : RleSafe desc) (hpos : desc.segmentRowCount ≠ 0)
    (hmd : parseRleMetadata desc = some md) : RleFits desc md := by
  refine ⟨fun tile hlt hquiet => ?_, fun entries hends => ?_⟩
  · have hsucc := tile_succ tile
    have hread := h.1 _ ((mem_countReads hmd hpos).2 ⟨tile, hlt, hquiet, rfl⟩)
    dsimp only at hread
    omega
  · -- the value of the last entry is read for the last row
    obtain ⟨sums, hsums, hbuild⟩ := hends.buildLoop_eq (s := .together) (fun _ _ _ _ _ => Nat.zero_le 1) fun _ => 0
    obtain ⟨_, _, hbuild', hread, -⟩ := h.2 .together (fun _ => 0) (fun _ => 0) hpos
    cases ((kernelBuildRle_some hmd _ _).trans hbuild).symm.trans hbuild'
    have hexact := valueEntries_exact hsums (hends.total ▸ hends.rows_lt) (Nat.ne_of_gt hends.entries_pos)
      fun _ => 0
    rw [hends.total] at hexact
    have hlast := hread _ (hexact.all (desc.segmentRowCount - 1) (by omega))
    have hbefore := hends.before
    have hentries := hends.entries_pos
    have hentry : entries - 1 =
        entryOf (rleCount desc.bytes md.countsOffset) entries (desc.segmentRowCount - 1) :=
      rowsOfRuns_entryOf (entries - 1) (by omega) (desc.segmentRowCount - 1) (by omega)
        (by rw [Nat.sub_add_cancel hentries, hends.total]; omega)
    rw [← hentry, Nat.add_assoc, ← Nat.mul_succ, Nat.succ_eq_add_one, Nat.sub_add_cancel hentries] at hlast
    exact hlast

/-- **The decoder is safe on a segment**, for any bytes, iff the counts up to the tile in which it stops
are inside, the value that comes to the row count is, and no tile up to there has a count of zero. -/
theorem rle_safe_iff (hrows : desc.segmentRowCount < 2 ^ 32) :
    RleSafe desc ↔ desc.segmentRowCount = 0 ∨ ∀ md, parseRleMetadata desc = some md →
      RleFits desc md ∧
        NoZeroReached (rleCount desc.bytes md.countsOffset) md.nCountsMax desc.segmentRowCount := by
  constructor
  · intro h
    rcases Nat.eq_zero_or_pos desc.segmentRowCount with hzero | hpos
    · exact .inl hzero
    · exact .inr fun md hmd =>
        ⟨h.fits (Nat.ne_of_gt hpos) hmd, h.noZeroReached (Nat.ne_of_gt hpos) hmd⟩
  · intro h
    rcases Nat.eq_zero_or_pos desc.segmentRowCount with hzero | hpos
    · refine ⟨fun r hr => ?_, fun s stored stale hne => absurd hzero hne⟩
      rw [countReads] at hr
      split at hr
      · cases hr
      · rw [if_pos hzero] at hr
        cases hr
    · exact RleFits.safe (h.resolve_left (Nat.ne_of_gt hpos)) hrows (Nat.ne_of_gt hpos)

/-- One run of five rows, with a value of eight bytes. -/
theorem rle_safe_five : RleSafe ⟨fun a => if a = 0 then 16 else if a = 16 then 5 else 0, 18, 5, 8⟩ := by
  apply (rle_safe_iff (by decide)).2
  right
  intro md hmd
  cases hmd
  refine ⟨⟨fun tile hlt _ => ?_, fun entries hends => ?_⟩, fun e he _ => ?_⟩
  · have hle : 16 + 2 * min 1 ((tile + 1) * buildTileEntries) ≤ 18 := by omega
    exact hle
  · have hle : entries ≤ 1 := hends.entries_le
    have hread : 8 + 8 * entries ≤ 18 := by omega
    exact hread
  · have hfirst : e < 1 := he
    obtain rfl : e = 0 := by omega
    decide

/-- Eight bytes of values and one byte of counts: eight counts are read from address 16 on. -/
theorem rle_reads_behind : ¬ RleSafe ⟨fun a => if a = 0 then 16 else 0, 17, 5, 1⟩ := by
  intro h
  have hread := h.1 (16, 16) (.head _)
  exact absurd hread (by decide)

end Safe

end Sirius.Native
