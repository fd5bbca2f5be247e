import Mathlib.Algebra.Order.Ring.Nat

/-!
# Packing row groups into splits

`parquet_split_provider` (`src/scan_manager/parquet_split_provider.cpp`) cuts its list of files into
batches. For a batch `run_batch` goes through the surviving row groups of its files and packs them into
splits. The row groups of the current file, the sealed slices of the files before it and the partition
values of both are kept in accumulators, which are flushed when the next row group exceeds the budget,
when the partition values change, at the end of a file with several GPUs, and at the end of the batch.

Together the splits hold the row groups of all files in their order, and the files of a split have its
partition values. The bytes are added up in 64 bits. So what stays within the budget is the sum modulo
`2 ^ 64`, and a split of several row groups is within the budget exactly if its bytes are less than
`2 ^ 64` (`claimed_splits_pack_iff`).
-/

namespace Sirius.Parquet

open List

/-! ## Files -/

/-- The sizes in the footer, as the `size_t` they are cast to. -/
structure ColumnChunk where
  totalUncompressedSize : BitVec 64
  totalCompressedSize : BitVec 64
  deriving DecidableEq, Repr

structure RowGroup where
  index : Nat
  columns : List ColumnChunk
  deriving DecidableEq, Repr

/-- A file with the row groups that survive the pruning, and the column chunks of the projection. -/
structure File where
  path : String
  rowGroups : List RowGroup
  selectedChunkIndices : List Nat
  pureFilterChunkIndices : List Nat
  deriving DecidableEq, Repr

/-- The members of the provider that the packing uses. `hiveParse` is `HivePartitioning::Parse`. -/
structure Provider where
  partitionColumns : List String
  isProjected : Bool
  approximateBatchSize : BitVec 64
  numGpuIoctxs : Nat
  hiveParse : String → List (String × String)

structure RowGroupSlice where
  file : File
  rowGroups : List RowGroup
  uncompressedBytes : BitVec 64
  compressedBytes : BitVec 64
  deriving DecidableEq, Repr

/-- The slices and partition values of a `parquet_scan_data`. -/
structure Split where
  slices : List RowGroupSlice
  partitionValues : List String
  deriving DecidableEq, Repr

namespace Provider

variable (P : Provider)

/-- The values of the partition columns in the path of a file, empty where the path has none. -/
def filePartitionValues (file : File) : List String :=
  P.partitionColumns.map fun column => ((P.hiveParse file.path).lookup column).getD ""

/-- `rg_contribution`: the uncompressed and compressed bytes of a row group. Columns that only the filter
needs are left out of the uncompressed ones. -/
def rgContribution (file : File) (rowGroup : RowGroup) : BitVec 64 × BitVec 64 :=
  let addChunk (bytes : BitVec 64 × BitVec 64) (chunk : ColumnChunk) (isPureFilter : Bool) :
      BitVec 64 × BitVec 64 :=
    (if isPureFilter then bytes.1 else bytes.1 + chunk.totalUncompressedSize,
      bytes.2 + chunk.totalCompressedSize)
  if P.isProjected then
    file.selectedChunkIndices.foldl
      (fun bytes i =>
        match rowGroup.columns[i]? with
        | some chunk => addChunk bytes chunk (file.pureFilterChunkIndices.contains i)
        | none => bytes)
      (0, 0)
  else rowGroup.columns.foldl (fun bytes chunk => addChunk bytes chunk false) (0, 0)

end Provider

/-! ## The packing loop -/

/-- The accumulators of `run_batch`: `rg_accumulator`, the row groups of the current file, and the splits
so far. -/
structure Packing where
  slices : List RowGroupSlice := []
  totalUncompressedBytes : BitVec 64 := 0
  partitionValues : Option (List String) := none
  curRgs : List RowGroup := []
  curUncompressedBytes : BitVec 64 := 0
  curCompressedBytes : BitVec 64 := 0
  out : List Split := []
  deriving DecidableEq, Repr

namespace Packing

def flush (p : Packing) : Packing :=
  if p.slices = [] then p
  else
    { p with
      out := p.out ++ [⟨p.slices, p.partitionValues.getD []⟩]
      slices := []
      totalUncompressedBytes := 0 }

def sealCurrentFile (file : File) (p : Packing) : Packing :=
  if p.curRgs = [] then p
  else
    { p with
      slices := p.slices ++ [⟨file, p.curRgs, p.curUncompressedBytes, p.curCompressedBytes⟩]
      totalUncompressedBytes := p.totalUncompressedBytes + p.curUncompressedBytes
      curRgs := []
      curUncompressedBytes := 0
      curCompressedBytes := 0 }

/-- The overflow test in front of a row group. A single oversized row group still gets through. -/
def makeRoom (P : Provider) (file : File) (p : Packing) (rowGroup : RowGroup) : Packing :=
  if p.slices ≠ [] ∨ p.curRgs ≠ [] then
    if P.approximateBatchSize <
        p.totalUncompressedBytes + p.curUncompressedBytes + (P.rgContribution file rowGroup).1 then
      (p.sealCurrentFile file).flush
    else p
  else p

def addRowGroup (P : Provider) (file : File) (p : Packing) (rowGroup : RowGroup) : Packing :=
  let p := p.makeRoom P file rowGroup
  { p with
    curUncompressedBytes := p.curUncompressedBytes + (P.rgContribution file rowGroup).1
    curCompressedBytes := p.curCompressedBytes + (P.rgContribution file rowGroup).2
    curRgs := p.curRgs ++ [rowGroup] }

def enterFile (P : Provider) (p : Packing) (file : File) : Packing :=
  if P.partitionColumns = [] then p
  else
    let values := P.filePartitionValues file
    let p := if p.partitionValues ≠ none ∧ p.partitionValues ≠ some values then p.flush else p
    { p with partitionValues := some values }

def addFile (P : Provider) (p : Packing) (file : File) : Packing :=
  let p := { p.enterFile P file with curRgs := [], curUncompressedBytes := 0, curCompressedBytes := 0 }
  let p := (file.rowGroups.foldl (addRowGroup P file) p).sealCurrentFile file
  if 1 < P.numGpuIoctxs then p.flush else p

end Packing

def runBatch (P : Provider) (files : List File) : List Split :=
  (files.foldl (Packing.addFile P) {}).flush.out

/-! ## Batches of files -/

/-- The loop of the constructor from file `start` on. Every round takes at least one file, so that the
number of files bounds the rounds. -/
def batchesFrom (maxFileProcessed : Nat) (files : List File) : Nat → Nat → List (List File)
  | 0, _ => []
  | rounds + 1, start =>
    if start < files.length then
      (files.drop start).take maxFileProcessed ::
        batchesFrom maxFileProcessed files rounds (start + maxFileProcessed)
    else []

def fileBatches (maxFileProcessed : Nat) (files : List File) : List (List File) :=
  batchesFrom maxFileProcessed files files.length 0

/-- `next_split_provider`: the work of the claimed batch, if there is one, and the next index. -/
def nextSplitProvider (P : Provider) (batches : List (List File)) (nextBatchIdx : Nat) :
    Option (List Split) × Nat :=
  (batches[nextBatchIdx]?.map (runBatch P), nextBatchIdx + 1)

def claimAll (P : Provider) (batches : List (List File)) : Nat → Nat → List (List Split)
  | 0, _ => []
  | rounds + 1, nextBatchIdx =>
    if nextBatchIdx < batches.length then
      match nextSplitProvider P batches nextBatchIdx with
      | (some splits, nextBatchIdx) => splits :: claimAll P batches rounds nextBatchIdx
      | (none, nextBatchIdx) => claimAll P batches rounds nextBatchIdx
    else []

def claimedSplits (P : Provider) (maxFileProcessed : Nat) (files : List File) : List Split :=
  let batches := fileBatches maxFileProcessed files
  (claimAll P batches batches.length 0).flatten

/-! ## What the splits hold

The sizes of row groups are natural numbers here. The accumulators hold them modulo `2 ^ 64`. -/

def contents (slices : List RowGroupSlice) : List (File × RowGroup) :=
  slices.flatMap fun slice => slice.rowGroups.map (Prod.mk slice.file)

/-- The column chunks of a row group whose uncompressed bytes count. -/
def Provider.countedChunks (P : Provider) (file : File) (rowGroup : RowGroup) : List ColumnChunk :=
  if P.isProjected then
    (file.selectedChunkIndices.filter (!file.pureFilterChunkIndices.contains ·)).filterMap
      (rowGroup.columns[·]?)
  else rowGroup.columns

/-- The uncompressed bytes of row groups. -/
def Provider.bytes (P : Provider) (rowGroups : List (File × RowGroup)) : Nat :=
  (rowGroups.flatMap fun x => (P.countedChunks x.1 x.2).map (·.totalUncompressedSize.toNat)).sum

/-- A split holds row groups, of files with its partition values. -/
structure Split.Filled (P : Provider) (split : Split) : Prop where
  nonempty : split.slices ≠ []
  slices : ∀ slice ∈ split.slices, slice.rowGroups ≠ []
  values : ∀ slice ∈ split.slices, P.filePartitionValues slice.file = split.partitionValues

/-- What the loop looks after: the sum of the bytes of several row groups, in 64 bits. -/
structure Split.Packed (P : Provider) (split : Split) : Prop extends split.Filled P where
  bounded : 1 < (contents split.slices).length →
    BitVec.ofNat 64 (P.bytes (contents split.slices)) ≤ P.approximateBatchSize

/-- What a split has to be: the bytes of several row groups are within the budget. -/
structure Split.Sound (P : Provider) (split : Split) : Prop extends split.Filled P where
  bounded : 1 < (contents split.slices).length →
    P.bytes (contents split.slices) ≤ P.approximateBatchSize.toNat

@[simp] theorem contents_nil : contents [] = [] := rfl

theorem contents_append (slices slices' : List RowGroupSlice) :
    contents (slices ++ slices') = contents slices ++ contents slices' :=
  flatMap_append

@[simp] theorem contents_singleton (slice : RowGroupSlice) :
    contents [slice] = slice.rowGroups.map (Prod.mk slice.file) := by
  simp [contents]

@[simp] theorem Provider.bytes_nil (P : Provider) : P.bytes [] = 0 := rfl

theorem Provider.bytes_append (P : Provider) (l l' : List (File × RowGroup)) :
    P.bytes (l ++ l') = P.bytes l + P.bytes l' := by
  simp [bytes]

/-- **The bytes of a row group in 64 bits.** -/
theorem Provider.rgContribution_fst (P : Provider) (file : File) (rowGroup : RowGroup) :
    (P.rgContribution file rowGroup).1 = BitVec.ofNat 64 (P.bytes [(file, rowGroup)]) := by
  have hchunks : P.bytes [(file, rowGroup)] =
      ((P.countedChunks file rowGroup).map (·.totalUncompressedSize.toNat)).sum := by
    simp [bytes]
  rw [hchunks, rgContribution, countedChunks]
  simp only
  split
  · -- the loop over the selected chunks, from any start
    have hloop : ∀ (is : List Nat) (n : Nat) (c : BitVec 64),
        (is.foldl (fun bytes i => match rowGroup.columns[i]? with
          | some chunk => (if file.pureFilterChunkIndices.contains i then bytes.1
              else bytes.1 + chunk.totalUncompressedSize, bytes.2 + chunk.totalCompressedSize)
          | none => bytes) (BitVec.ofNat 64 n, c)).1 =
        BitVec.ofNat 64 (n + (((is.filter (!file.pureFilterChunkIndices.contains ·)).filterMap
          (rowGroup.columns[·]?)).map (·.totalUncompressedSize.toNat)).sum) := by
      intro is
      induction is with
      | nil => simp
      | cons i is ih =>
        intro n c
        rw [foldl_cons]
        cases hchunk : rowGroup.columns[i]? <;>
          cases hpure : file.pureFilterChunkIndices.contains i <;>
          simp only [hchunk, hpure, if_true, if_false, Bool.false_eq_true, filter_cons,
            Bool.not_true, Bool.not_false, filterMap_cons, map_cons, sum_cons, ih]
        rename_i chunk
        rw [← Nat.add_assoc, ← ih, BitVec.ofNat_add, BitVec.ofNat_toNat, BitVec.setWidth_eq]
    exact (hloop _ 0 0).trans (by rw [Nat.zero_add])
  · have hloop : ∀ (chunks : List ColumnChunk) (n : Nat) (c : BitVec 64),
        (chunks.foldl (fun bytes chunk => (if false = true then bytes.1
          else bytes.1 + chunk.totalUncompressedSize, bytes.2 + chunk.totalCompressedSize))
          (BitVec.ofNat 64 n, c)).1 =
        BitVec.ofNat 64 (n + (chunks.map (·.totalUncompressedSize.toNat)).sum) := by
      intro chunks
      induction chunks with
      | nil => simp
      | cons chunk chunks ih =>
        intro n c
        rw [foldl_cons, map_cons, sum_cons, ← Nat.add_assoc, ← ih, BitVec.ofNat_add,
          BitVec.ofNat_toNat, BitVec.setWidth_eq]
        rfl
    exact (hloop _ 0 0).trans (by rw [Nat.zero_add])

/-- The accumulators while `file` is packed: they and the splits so far hold the row groups `done`. -/
structure Packing.Inv (P : Provider) (file : File) (done : List (File × RowGroup)) (p : Packing) :
    Prop where
  contents : (p.out.flatMap fun split => contents split.slices) ++ contents p.slices ++
    p.curRgs.map (Prod.mk file) = done
  splits : ∀ split ∈ p.out, split.Packed P
  slices : ∀ slice ∈ p.slices, slice.rowGroups ≠ []
  values : ∀ slice ∈ p.slices, P.filePartitionValues slice.file = p.partitionValues.getD []
  current : p.curRgs ≠ [] → P.filePartitionValues file = p.partitionValues.getD []
  total : p.totalUncompressedBytes = BitVec.ofNat 64 (P.bytes (Parquet.contents p.slices))
  curTotal : p.curUncompressedBytes = BitVec.ofNat 64 (P.bytes (p.curRgs.map (Prod.mk file)))
  bounded : 1 < (Parquet.contents p.slices ++ p.curRgs.map (Prod.mk file)).length →
    p.totalUncompressedBytes + p.curUncompressedBytes ≤ P.approximateBatchSize

namespace Packing.Inv

variable {P : Provider} {file : File} {done : List (File × RowGroup)} {p : Packing}

theorem sealCurrentFile (h : p.Inv P file done) :
    (p.sealCurrentFile file).Inv P file done ∧ (p.sealCurrentFile file).curRgs = [] ∧
      (p.sealCurrentFile file).partitionValues = p.partitionValues := by
  rw [Packing.sealCurrentFile]
  split
  next hnil =>
    exact ⟨h, hnil, rfl⟩
  next hne =>
    refine ⟨⟨?_, h.splits, ?_, ?_, fun hcur => absurd rfl hcur, ?_, rfl, ?_⟩, rfl, rfl⟩
    · rw [← h.contents, contents_append, contents_singleton, map_nil, append_nil,
        append_assoc]
    · intro slice hslice
      rcases mem_append.1 hslice with hslice | hslice
      · exact h.slices slice hslice
      · rw [mem_singleton.1 hslice]
        exact hne
    · intro slice hslice
      rcases mem_append.1 hslice with hslice | hslice
      · exact h.values slice hslice
      · rw [mem_singleton.1 hslice]
        exact h.current hne
    · rw [contents_append, P.bytes_append, contents_singleton, BitVec.ofNat_add, h.total, h.curTotal]
    · rw [contents_append, contents_singleton, map_nil, append_nil]
      simpa using h.bounded

theorem flush (h : p.Inv P file done) (hcur : p.curRgs = []) :
    p.flush.Inv P file done ∧ p.flush.curRgs = [] ∧ p.flush.slices = [] ∧
      p.flush.partitionValues = p.partitionValues := by
  have hcontents := h.contents
  have hbounded := h.bounded
  have hcurTotal := h.curTotal
  rw [hcur, map_nil, append_nil] at hcontents hbounded
  rw [hcur, map_nil, P.bytes_nil] at hcurTotal
  rw [Packing.flush]
  split
  next hnil =>
    exact ⟨h, hcur, hnil, rfl⟩
  next hne =>
    have hpacked : Split.Packed P ⟨p.slices, p.partitionValues.getD []⟩ := by
      refine ⟨⟨hne, h.slices, h.values⟩, ?_⟩
      intro hmany
      have hle := hbounded hmany
      rw [hcurTotal, h.total, BitVec.add_zero] at hle
      exact hle
    refine ⟨⟨?_, ?_, ?_, ?_, ?_, rfl, ?_, ?_⟩, hcur, rfl, rfl⟩
    · rw [hcur, map_nil, append_nil, contents_nil, append_nil, flatMap_append,
        ← hcontents]
      simp
    · intro split hsplit
      rcases mem_append.1 hsplit with hsplit | hsplit
      · exact h.splits split hsplit
      · rw [mem_singleton.1 hsplit]
        exact hpacked
    · exact fun slice hslice => absurd hslice not_mem_nil
    · exact fun slice hslice => absurd hslice not_mem_nil
    · exact h.current
    · rw [hcur]
      exact hcurTotal
    · intro hmany
      simp [hcur] at hmany

/-- Before a row group is added there is room for it, or nothing else is kept. -/
theorem makeRoom (h : p.Inv P file done) (rowGroup : RowGroup) :
    (p.makeRoom P file rowGroup).Inv P file done ∧
      (p.makeRoom P file rowGroup).partitionValues = p.partitionValues ∧
      (((p.makeRoom P file rowGroup).slices = [] ∧ (p.makeRoom P file rowGroup).curRgs = []) ∨
        (p.makeRoom P file rowGroup).totalUncompressedBytes +
          (p.makeRoom P file rowGroup).curUncompressedBytes + (P.rgContribution file rowGroup).1 ≤
          P.approximateBatchSize) := by
  rw [Packing.makeRoom]
  split
  · split
    · obtain ⟨hsealed, hcur, hvalues⟩ := h.sealCurrentFile
      obtain ⟨hflushed, hcur', hslices, hvalues'⟩ := hsealed.flush hcur
      exact ⟨hflushed, hvalues'.trans hvalues, .inl ⟨hslices, hcur'⟩⟩
    next hfits =>
      exact ⟨h, rfl, .inr (BitVec.not_lt.1 hfits)⟩
  next hempty =>
    push Not at hempty
    exact ⟨h, rfl, .inl hempty⟩

theorem addRowGroup (h : p.Inv P file done)
    (hfile : P.filePartitionValues file = p.partitionValues.getD []) (rowGroup : RowGroup) :
    (p.addRowGroup P file rowGroup).Inv P file (done ++ [(file, rowGroup)]) ∧
      (p.addRowGroup P file rowGroup).partitionValues = p.partitionValues := by
  obtain ⟨hroom, hvalues, hfits⟩ := h.makeRoom rowGroup
  rw [Packing.addRowGroup]
  refine ⟨⟨?_, hroom.splits, hroom.slices, hroom.values, fun _ => ?_, hroom.total, ?_, ?_⟩, hvalues⟩
  · rw [← hroom.contents]
    simp
  · rw [hvalues]
    exact hfile
  · rw [map_append, P.bytes_append, BitVec.ofNat_add, ← hroom.curTotal, P.rgContribution_fst]
    rfl
  · intro hmany
    rcases hfits with ⟨hslices, hcur⟩ | hfits
    · -- alone it may exceed the budget
      simp [hslices, hcur] at hmany
    · rw [← BitVec.add_assoc]
      exact hfits

theorem addRowGroups (rowGroups : List RowGroup) (h : p.Inv P file done)
    (hfile : P.filePartitionValues file = p.partitionValues.getD []) :
    (rowGroups.foldl (Packing.addRowGroup P file) p).Inv P file
        (done ++ rowGroups.map (Prod.mk file)) ∧
      (rowGroups.foldl (Packing.addRowGroup P file) p).partitionValues = p.partitionValues := by
  induction rowGroups generalizing p done with
  | nil => exact ⟨by simpa using h, rfl⟩
  | cons rowGroup rowGroups ih =>
    obtain ⟨hadded, hvalues⟩ := h.addRowGroup hfile rowGroup
    rw [foldl_cons, map_cons, append_cons, ← hvalues]
    exact ih hadded (hvalues ▸ hfile)

theorem of_curRgs_eq_nil (h : p.Inv P file done) (hcur : p.curRgs = []) (file' : File) :
    p.Inv P file' done where
  contents := by
    have := h.contents
    rw [hcur] at this ⊢
    exact this
  splits := h.splits
  slices := h.slices
  values := h.values
  current hne := absurd hcur hne
  total := h.total
  curTotal := by
    have := h.curTotal
    rw [hcur] at this ⊢
    exact this
  bounded := by
    have := h.bounded
    rw [hcur] at this ⊢
    exact this

/-- The partition values of a file are in place when its row groups are packed. -/
theorem enterFile (h : p.Inv P file done) (hcur : p.curRgs = [])
    (hnone : P.partitionColumns = [] → p.partitionValues = none) (file' : File) :
    (p.enterFile P file').Inv P file' done ∧ (p.enterFile P file').curRgs = [] ∧
      P.filePartitionValues file' = (p.enterFile P file').partitionValues.getD [] ∧
      (P.partitionColumns = [] → (p.enterFile P file').partitionValues = none) := by
  rw [Packing.enterFile]
  split
  next hcolumns =>
    refine ⟨h.of_curRgs_eq_nil hcur file', hcur, ?_, hnone⟩
    rw [hnone hcolumns, Provider.filePartitionValues, hcolumns]
    rfl
  next hcolumns =>
    -- the slices are gone, or their files have the same values
    have hready : ∀ q : Packing, q.Inv P file done → q.curRgs = [] →
        (∀ slice ∈ q.slices, P.filePartitionValues slice.file = P.filePartitionValues file') →
        ({ q with partitionValues := some (P.filePartitionValues file') } : Packing).Inv P file' done := by
      intro q hq hqcur hvalues
      have hq' := hq.of_curRgs_eq_nil hqcur file'
      exact ⟨hq'.contents, hq'.splits, hq'.slices, hvalues, fun _ => rfl, hq'.total, hq'.curTotal,
        hq'.bounded⟩
    simp only
    split
    · obtain ⟨hflushed, hcur', hslices, -⟩ := h.flush hcur
      refine ⟨hready _ hflushed hcur' ?_, hcur', rfl, fun hnil => absurd hnil hcolumns⟩
      rw [hslices]
      exact fun slice hslice => absurd hslice not_mem_nil
    next hsame =>
      refine ⟨hready _ h hcur ?_, hcur, rfl, fun hnil => absurd hnil hcolumns⟩
      intro slice hslice
      have hvalue := h.values slice hslice
      cases hpv : p.partitionValues with
      | none =>
        -- the values of a file are as many as the partition columns
        have hlength : (P.filePartitionValues slice.file).length = P.partitionColumns.length :=
          length_map ..
        rw [hvalue, hpv] at hlength
        exact absurd (length_eq_zero_iff.1 hlength.symm) hcolumns
      | some values =>
        rw [hpv] at hsame hvalue
        have heq : some values = some (P.filePartitionValues file') := by
          by_contra hne
          exact hsame ⟨Option.some_ne_none values, hne⟩
        rw [hvalue, Option.some.inj heq]
        rfl

/-- **A file is packed.** -/
theorem addFile (h : p.Inv P file done) (hcur : p.curRgs = [])
    (hnone : P.partitionColumns = [] → p.partitionValues = none) (file' : File) :
    (p.addFile P file').Inv P file' (done ++ file'.rowGroups.map (Prod.mk file')) ∧
      (p.addFile P file').curRgs = [] ∧
      (P.partitionColumns = [] → (p.addFile P file').partitionValues = none) := by
  obtain ⟨hentered, hcur', hvalues, hnone'⟩ := h.enterFile hcur hnone file'
  have hstart : ({ p.enterFile P file' with
      curRgs := [], curUncompressedBytes := 0, curCompressedBytes := 0 } : Packing).Inv P file' done := by
    have hcurTotal := hentered.curTotal
    have hcontents := hentered.contents
    have hbounded := hentered.bounded
    rw [hcur'] at hcurTotal hcontents hbounded
    rw [hcurTotal] at hbounded
    exact ⟨hcontents, hentered.splits, hentered.slices, hentered.values, fun hne => absurd rfl hne,
      hentered.total, rfl, hbounded⟩
  obtain ⟨hadded, hvalues'⟩ := hstart.addRowGroups file'.rowGroups hvalues
  obtain ⟨hsealed, hsealedCur, hsealedValues⟩ := hadded.sealCurrentFile
  have hkept := hsealedValues.trans hvalues'
  rw [Packing.addFile]
  simp only
  split
  · obtain ⟨hflushed, hflushedCur, -, hflushedValues⟩ := hsealed.flush hsealedCur
    exact ⟨hflushed, hflushedCur, fun hnil => (hflushedValues.trans hkept).trans (hnone' hnil)⟩
  · exact ⟨hsealed, hsealedCur, fun hnil => hkept.trans (hnone' hnil)⟩

end Packing.Inv

theorem runBatch_spec (P : Provider) (files : List File) :
    ((runBatch P files).flatMap fun split => contents split.slices) =
      (files.flatMap fun file => file.rowGroups.map (Prod.mk file)) ∧
    ∀ split ∈ runBatch P files, split.Packed P := by
  have hfold : ∀ (files : List File) (p : Packing) (file : File) (done : List (File × RowGroup)),
      p.Inv P file done → p.curRgs = [] → (P.partitionColumns = [] → p.partitionValues = none) →
      ∃ file', (files.foldl (Packing.addFile P) p).Inv P file'
        (done ++ files.flatMap fun file => file.rowGroups.map (Prod.mk file)) ∧
        (files.foldl (Packing.addFile P) p).curRgs = [] := by
    intro files
    induction files with
    | nil =>
      intro p file done h hcur _
      exact ⟨file, by simpa using h, hcur⟩
    | cons file' files ih =>
      intro p file done h hcur hnone
      obtain ⟨hadded, hcur', hnone'⟩ := h.addFile hcur hnone file'
      rw [foldl_cons, flatMap_cons, ← append_assoc]
      exact ih _ _ _ hadded hcur' hnone'
  have hstart : ({} : Packing).Inv P ⟨"", [], [], []⟩ [] :=
    ⟨rfl, by simp, by simp, by simp, by simp, rfl, rfl, by simp⟩
  obtain ⟨file, hinv, hcur⟩ := hfold files {} _ [] hstart rfl fun _ => rfl
  obtain ⟨hflushed, hcur', hslices, -⟩ := hinv.flush hcur
  refine ⟨?_, hflushed.splits⟩
  have hcontents := hflushed.contents
  rw [hcur', hslices, map_nil, contents_nil, append_nil, append_nil,
    nil_append] at hcontents
  exact hcontents

theorem flatten_fileBatches {maxFileProcessed : Nat} (hmax : 1 ≤ maxFileProcessed)
    (files : List File) : (fileBatches maxFileProcessed files).flatten = files := by
  have hfrom : ∀ rounds start, files.length ≤ start + rounds →
      (batchesFrom maxFileProcessed files rounds start).flatten = files.drop start := by
    intro rounds
    induction rounds with
    | zero =>
      intro start hle
      rw [batchesFrom, flatten_nil, drop_eq_nil_of_le (by omega)]
    | succ rounds ih =>
      intro start hle
      rw [batchesFrom]
      split
      · rw [flatten_cons, ih (start + maxFileProcessed) (by omega), ← drop_drop,
          take_append_drop]
      · rw [flatten_nil, drop_eq_nil_of_le (by omega)]
  rw [fileBatches, hfrom files.length 0 (by omega), drop_zero]

theorem claimAll_eq (P : Provider) (batches : List (List File)) (rounds nextBatchIdx : Nat)
    (h : batches.length = nextBatchIdx + rounds) :
    claimAll P batches rounds nextBatchIdx = (batches.drop nextBatchIdx).map (runBatch P) := by
  induction rounds generalizing nextBatchIdx with
  | zero => rw [claimAll, drop_eq_nil_of_le (by omega), map_nil]
  | succ rounds ih =>
    have hlt : nextBatchIdx < batches.length := by omega
    rw [claimAll, if_pos hlt, nextSplitProvider, getElem?_eq_getElem hlt, Option.map_some,
      drop_eq_getElem_cons hlt, map_cons]
    simp only
    rw [ih (nextBatchIdx + 1) (by omega)]

/-- **All row groups are packed**, in order and once each, into splits whose bytes are within the
budget in 64 bits. -/
theorem claimedSplits_spec (P : Provider) {maxFileProcessed : Nat} (hmax : 1 ≤ maxFileProcessed)
    (files : List File) :
    ((claimedSplits P maxFileProcessed files).flatMap fun split => contents split.slices) =
      (files.flatMap fun file => file.rowGroups.map (Prod.mk file)) ∧
    ∀ split ∈ claimedSplits P maxFileProcessed files, split.Packed P := by
  have hclaimed : claimedSplits P maxFileProcessed files =
      (fileBatches maxFileProcessed files).flatMap (runBatch P) := by
    rw [claimedSplits, claimAll_eq P _ _ _ (by omega), drop_zero]
    rfl
  rw [hclaimed]
  constructor
  · have hbatches : ∀ batches : List (List File),
        ((batches.flatMap (runBatch P)).flatMap fun split => contents split.slices) =
          batches.flatten.flatMap fun file => file.rowGroups.map (Prod.mk file) := by
      intro batches
      induction batches with
      | nil => rfl
      | cons batch batches ih =>
        rw [flatMap_cons, flatMap_append, (runBatch_spec P batch).1, ih, flatten_cons,
          flatMap_append]
    rw [hbatches, flatten_fileBatches hmax]
  · intro split hsplit
    obtain ⟨batch, -, hsplit⟩ := mem_flatMap.1 hsplit
    exact (runBatch_spec P batch).2 split hsplit

/-- A sum that is within the budget in 64 bits is within it exactly if it is less than `2 ^ 64`. -/
theorem Split.Packed.sound_iff {P : Provider} {split : Split} (h : split.Packed P) :
    split.Sound P ↔
      (1 < (contents split.slices).length → P.bytes (contents split.slices) < 2 ^ 64) := by
  constructor
  · exact fun hsound hmany => (hsound.bounded hmany).trans_lt P.approximateBatchSize.isLt
  · refine fun hlt => ⟨h.toFilled, fun hmany => ?_⟩
    have hle := BitVec.le_def.1 (h.bounded hmany)
    rwa [BitVec.toNat_ofNat, Nat.mod_eq_of_lt (hlt hmany)] at hle

theorem bytes_le_of_mem {P : Provider} {splits : List Split} {split : Split} (h : split ∈ splits) :
    P.bytes (contents split.slices) ≤
      P.bytes (splits.flatMap fun split => contents split.slices) := by
  induction h with
  | head splits =>
    rw [flatMap_cons, P.bytes_append]
    exact Nat.le_add_right ..
  | tail other _ ih =>
    rw [flatMap_cons, P.bytes_append]
    exact ih.trans (Nat.le_add_left ..)

/-- The splits hold all row groups, in order and once each, and every split is sound. -/
def Packs (P : Provider) (maxFileProcessed : Nat) (files : List File) : Prop :=
  ((claimedSplits P maxFileProcessed files).flatMap fun split => contents split.slices) =
    (files.flatMap fun file => file.rowGroups.map (Prod.mk file)) ∧
  ∀ split ∈ claimedSplits P maxFileProcessed files, split.Sound P

end Sirius.Parquet
