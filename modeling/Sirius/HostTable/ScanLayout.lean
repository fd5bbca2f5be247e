import Sirius.HostTable.ColumnBuilder

/-!
# The layout of a scan

A DuckDB scan task estimates how many rows fit into its allocation of `approximate_batch_size` bytes
(`estimate_rows_per_batch`), lays out its columns for that many rows (`initialize_builders`), and then
takes chunks until the next one could be too many (the loop of `compute_task`).

The estimate counts one bit per row and column for the masks, rounded up over all columns. The layout
rounds up the mask of every column and starts every column at a multiple of eight, which the estimate
does not count. Each column still stays in its own region, but the last one can end behind the
allocation: `scan_layout_iff` says exactly when it does.
-/

namespace Sirius.HostTable

open Lib List
open Expression (LogicalType)
open Native (fixedWidthByteSize isVarchar)

variable {blockSize : Nat}

/-! ## The scan task -/

def standardVectorSize : Nat := 2048

def estimatedRowBytes (types : List LogicalType) (defaultVarcharSize : Nat) : Nat :=
  (types.map fun type =>
    if isVarchar type then 4 + defaultVarcharSize else fixedWidthByteSize type).sum +
      (types.length + 7) / 8

/-- `estimate_rows_per_batch`. The difference is one of 64-bit numbers. -/
def estimateRowsPerBatch (types : List LogicalType)
    (approximateBatchSize defaultVarcharSize : Nat) : Nat :=
  let extraVarcharOffsetBytes := types.countP isVarchar * 4
  max ((approximateBatchSize + 2 ^ 64 - extraVarcharOffsetBytes) % 2 ^ 64 /
    estimatedRowBytes types defaultVarcharSize) standardVectorSize

def alignUp8 (byteOffset : Nat) : Nat := (byteOffset + 7) / 8 * 8

def columnBytes (type : LogicalType) (defaultVarcharSize est : Nat) : Nat :=
  if isVarchar type then (est + 1) * 4 + est * defaultVarcharSize + (est + 7) / 8
  else est * fixedWidthByteSize type + (est + 7) / 8

/-- `initialize_builders`, from a column on. It also returns the column and the offset of each byte
that is written. -/
def initializeBuilders (h : 0 < blockSize) (defaultVarcharSize est : Nat) :
    Nat → List LogicalType → Nat → Allocation blockSize →
      Option (List (ColumnBuilder blockSize) × Allocation blockSize × List (Nat × Nat))
  | _, [], _, m => some ([], m, [])
  | i, type :: types, byteOffset, m => do
    let byteOffset := alignUp8 byteOffset
    let (b, m) ← initializeAccessors h type defaultVarcharSize est byteOffset { m with written := [] }
    let (builders, m', writes) ← initializeBuilders h defaultVarcharSize est (i + 1) types
      (byteOffset + columnBytes type defaultVarcharSize est) m
    some (b :: builders, m', m.written.map (Prod.mk i) ++ writes)

structure Chunk where
  size : Nat
  data : Nat → FlatVector

/-- `duckdb_scan_task_local_state`, with the column and the offset of each byte written so far. -/
structure ScanState (blockSize : Nat) where
  builders : List (ColumnBuilder blockSize)
  allocation : Allocation blockSize
  estimatedRowsPerBatch : Nat
  rowOffset : Nat := 0
  writes : List (Nat × Nat)

def ScanState.make (h : 0 < blockSize) (types : List LogicalType)
    (approximateBatchSize defaultVarcharSize : Nat) (blocks : Nat → Memory) :
    Option (ScanState blockSize) := do
  let est := estimateRowsPerBatch types approximateBatchSize defaultVarcharSize
  let (builders, allocation, writes) ← initializeBuilders h defaultVarcharSize est 0 types 0 ⟨blocks, []⟩
  some { builders, allocation, estimatedRowsPerBatch := est, writes }

def chunkFits (chunk : Chunk) : Nat → List (ColumnBuilder blockSize) → Bool
  | _, [] => true
  | i, b :: builders =>
    (!isVarchar b.type || b.sufficientSpaceForColumn (chunk.data i) chunk.size) &&
      chunkFits chunk (i + 1) builders

def processColumns (chunk : Chunk) (rowOffset : Nat) :
    Nat → List (ColumnBuilder blockSize) → Allocation blockSize →
      List (ColumnBuilder blockSize) × Allocation blockSize × List (Nat × Nat)
  | _, [], m => ([], m, [])
  | i, b :: builders, m =>
    let (b, m) := b.processColumn (chunk.data i) chunk.size rowOffset { m with written := [] }
    let (builders, m', writes) := processColumns chunk rowOffset (i + 1) builders m
    (b :: builders, m', m.written.map (Prod.mk i) ++ writes)

def ScanState.processChunk (s : ScanState blockSize) (chunk : Chunk) : ScanState blockSize :=
  let (builders, allocation, writes) := processColumns chunk s.rowOffset 0 s.builders s.allocation
  { s with
    builders, allocation, rowOffset := s.rowOffset + chunk.size, writes := s.writes ++ writes }

/-- The loop of `compute_task`, with the chunks that `get_next_chunk` gets; an empty one is the end. It
throws if a chunk does not fit. -/
def scanLoop : List Chunk → ScanState blockSize → Option (ScanState blockSize)
  | [], s => some s
  | chunk :: chunks, s =>
    if chunk.size = 0 then some s
    else if chunkFits chunk 0 s.builders then
      let s := s.processChunk chunk
      if s.estimatedRowsPerBatch ≤ standardVectorSize + s.rowOffset then some s else scanLoop chunks s
    else none

/-! ## The layout -/

def regionOf (type : LogicalType) (defaultVarcharSize est start : Nat) : Region :=
  let data := if isVarchar type then start + (est + 1) * 4 else start
  let mask := data + est * typeSizeOf type defaultVarcharSize
  { start, data, mask, stop := mask + (est + 7) / 8 }

def layout (defaultVarcharSize est : Nat) : Nat → List LogicalType → List Region
  | _, [] => []
  | byteOffset, type :: types =>
    regionOf type defaultVarcharSize est (alignUp8 byteOffset) ::
      layout defaultVarcharSize est (regionOf type defaultVarcharSize est (alignUp8 byteOffset)).stop types

section Layout

variable {defaultVarcharSize est byteOffset : Nat} {types : List LogicalType} {region : Region}

theorem le_alignUp8 (byteOffset : Nat) : byteOffset ≤ alignUp8 byteOffset := by
  rw [alignUp8]
  omega

theorem regionOf_le (type : LogicalType) (defaultVarcharSize est start : Nat) :
    start ≤ (regionOf type defaultVarcharSize est start).mask := by
  simp only [regionOf]
  split <;> omega

theorem stop_regionOf (type : LogicalType) (start : Nat) :
    (regionOf type defaultVarcharSize est start).stop =
      start + columnBytes type defaultVarcharSize est := by
  simp only [regionOf, columnBytes, typeSizeOf]
  split <;> omega

theorem start_layout (h : region ∈ layout defaultVarcharSize est byteOffset types) :
    byteOffset ≤ region.start ∧ region.start ≤ region.mask ∧
      region.stop = region.mask + (est + 7) / 8 := by
  induction types generalizing byteOffset with
  | nil => cases h
  | cons type types ih =>
    have halign := le_alignUp8 byteOffset
    have hmask := regionOf_le type defaultVarcharSize est (alignUp8 byteOffset)
    rcases mem_cons.1 h with rfl | h
    · exact ⟨halign, hmask, rfl⟩
    · have hrest := ih h
      have hstop : (regionOf type defaultVarcharSize est (alignUp8 byteOffset)).stop =
        (regionOf type defaultVarcharSize est (alignUp8 byteOffset)).mask + (est + 7) / 8 := rfl
      exact ⟨by omega, hrest.2⟩

/-- **The regions of the columns do not overlap.** -/
theorem pairwise_layout :
    (layout defaultVarcharSize est byteOffset types).Pairwise fun x y => x.stop ≤ y.start := by
  induction types generalizing byteOffset with
  | nil => exact .nil
  | cons type types ih => exact .cons (fun _ h => (start_layout h).1) ih

theorem mask_le_last {last : Region} (h : region ∈ layout defaultVarcharSize est byteOffset types)
    (hlast : (layout defaultVarcharSize est byteOffset types).getLast? = some last) :
    region.mask ≤ last.mask := by
  obtain ⟨before, hsplit⟩ := getLast?_eq_some_iff.1 hlast
  have hpairwise : (layout defaultVarcharSize est byteOffset types).Pairwise
      fun x y => x.stop ≤ y.start := pairwise_layout
  have hfirst := (start_layout h).2
  have hends : last ∈ layout defaultVarcharSize est byteOffset types := by simp [hsplit]
  rw [hsplit] at hpairwise h
  rcases mem_append.1 h with h | h
  · have hbefore := (pairwise_append.1 hpairwise).2.2 region h last (mem_singleton_self _)
    have hmask := (start_layout hends).2.1
    omega
  · rw [mem_singleton.1 h]

end Layout

/-- The bytes that columns write, in terms of their regions. -/
def Within (P : Region → Nat → Prop) (regions : List Region) (i : Nat) (writes : List (Nat × Nat)) :
    Prop :=
  ∀ column a, (column, a) ∈ writes → ∃ region, i ≤ column ∧ regions[column - i]? = some region ∧ P region a

section Within

variable {P : Region → Nat → Prop} {region : Region} {regions : List Region} {i : Nat}
  {writes : List (Nat × Nat)}

theorem Within.cons {written : List Nat} (h : Within P regions (i + 1) writes)
    (hfirst : ∀ a ∈ written, P region a) :
    Within P (region :: regions) i (written.map (Prod.mk i) ++ writes) := by
  intro column a hmem
  rcases mem_append.1 hmem with hmem | hmem
  · obtain ⟨_, ha, ⟨⟩⟩ := mem_map.1 hmem
    exact ⟨region, Nat.le_refl _, by simp, hfirst a ha⟩
  · obtain ⟨other, hle, hother, hp⟩ := h column a hmem
    refine ⟨other, by omega, ?_, hp⟩
    rwa [show column - i = (column - (i + 1)) + 1 by omega, getElem?_cons_succ]

theorem Within.mono {Q : Region → Nat → Prop} (h : Within P regions i writes)
    (himp : ∀ region a, P region a → Q region a) : Within Q regions i writes := by
  intro column a hmem
  obtain ⟨region, hle, hregion, hp⟩ := h column a hmem
  exact ⟨region, hle, hregion, himp region a hp⟩

theorem Within.append {writes' : List (Nat × Nat)} (h : Within P regions i writes)
    (h' : Within P regions i writes') : Within P regions i (writes ++ writes') := by
  intro column a hmem
  rcases mem_append.1 hmem with hmem | hmem
  · exact h column a hmem
  · exact h' column a hmem

end Within

/-! ## The builders are laid out -/

section Setup

variable {defaultVarcharSize est byteOffset i : Nat} {type : LogicalType} {types : List LogicalType}
  {m m' : Allocation blockSize} {b : ColumnBuilder blockSize}

theorem initializeAccessors_spec (h : 0 < blockSize) (haligned : 4 ∣ byteOffset)
    (hinit : initializeAccessors h type defaultVarcharSize est byteOffset m = some (b, m')) :
    b.Reached est (regionOf type defaultVarcharSize est byteOffset) 0 ∧
      ∀ a ∈ m'.written, a ∈ m.written ∨
        byteOffset ≤ a ∧ a < (regionOf type defaultVarcharSize est byteOffset).mask := by
  rw [initializeAccessors] at hinit
  obtain ⟨-, hinit⟩ := Option.ite_none_right_eq_some.1 hinit
  split at hinit
  next hvarchar =>
    obtain ⟨hblock, ⟨⟩⟩ := Option.ite_none_right_eq_some.1 hinit
    have hblock := Nat.dvd_of_mod_eq_zero hblock
    have hdata : (regionOf type defaultVarcharSize est byteOffset).data =
        byteOffset + (est + 1) * 4 := if_pos hvarchar
    have hmask : (regionOf type defaultVarcharSize est byteOffset).mask =
        byteOffset + (est + 1) * 4 + est * typeSizeOf type defaultVarcharSize := by
      rw [← hdata]
      rfl
    refine ⟨⟨⟨?_, rfl, fun _ => hblock, fun _ => ?_, fun _ => ?_, fun _ => ?_, fun _ => rfl,
      fun _ => Nat.zero_le _, fun hfixed => absurd hvarchar (by simp [hfixed]), ?_⟩, ?_⟩, ?_⟩
    · rw [hdata]
      exact Nat.le_add_right _ _
    · exact (Nat.dvd_mod_iff hblock).2 haligned
    · exact Accessor.position_initializeAt h byteOffset
    · rw [hdata, Nat.mul_comm]
      rfl
    · rw [hdata]
      exact Accessor.position_initializeAt h _
    · rw [hmask]
      exact Accessor.position_initializeAt h _
    · intro a ha
      rw [hmask]
      have hwritten := BlockWriter.written_setCurrent
        (⟨Accessor.initializeAt h byteOffset, m⟩ : BlockWriter blockSize) (encode 4 0)
      rw [length_encode] at hwritten
      rw [show (BlockWriter.position ⟨Accessor.initializeAt h byteOffset, m⟩ : Nat) = byteOffset from
        Accessor.position_initializeAt h byteOffset] at hwritten
      have hmem : a ∈ m.written ++ range' byteOffset 4 := hwritten ▸ ha
      rw [mem_append, mem_range'_1] at hmem
      apply hmem.imp_right
      omega
  next hfixed =>
    cases hinit
    have hdata : (regionOf type defaultVarcharSize est byteOffset).data = byteOffset := if_neg hfixed
    have hmask : (regionOf type defaultVarcharSize est byteOffset).mask =
        byteOffset + est * typeSizeOf type defaultVarcharSize := by
      conv_rhs => rw [← hdata]
      rfl
    refine ⟨⟨⟨Nat.le_of_eq hdata.symm, rfl, fun hv => absurd hv hfixed, fun hv => absurd hv hfixed,
      fun hv => absurd hv hfixed, fun hv => absurd hv hfixed, fun hv => absurd hv hfixed,
      fun hv => absurd hv hfixed, fun _ => rfl, ?_⟩, ?_⟩, fun a ha => .inl ha⟩
    · rw [hdata]
      exact Accessor.position_initializeAt h _
    · rw [hmask]
      exact Accessor.position_initializeAt h _

theorem initializeBuilders_spec (h : 0 < blockSize)
    {builders : List (ColumnBuilder blockSize)} {writes : List (Nat × Nat)}
    (hinit : initializeBuilders h defaultVarcharSize est i types byteOffset m =
      some (builders, m', writes)) :
    List.Forall₂ (fun region b => b.Reached est region 0)
        (layout defaultVarcharSize est byteOffset types) builders ∧
      Within (fun region a => region.start ≤ a ∧ a < region.mask)
        (layout defaultVarcharSize est byteOffset types) i writes := by
  induction types generalizing i byteOffset m m' builders writes with
  | nil =>
    cases hinit
    exact ⟨.nil, fun _ _ hmem => absurd hmem not_mem_nil⟩
  | cons type types ih =>
    rw [initializeBuilders] at hinit
    simp only [Option.bind_eq_bind, Option.bind_eq_some_iff, Prod.exists] at hinit
    obtain ⟨b, m₁, hfirst, builders, m₂, writes, hrest, ⟨⟩⟩ := hinit
    rw [← stop_regionOf] at hrest
    obtain ⟨hreached, hwithin⟩ := ih hrest
    have haligned : 4 ∣ alignUp8 byteOffset := by
      rw [alignUp8]
      omega
    obtain ⟨hb, hwritten⟩ := initializeAccessors_spec h haligned hfirst
    refine ⟨.cons hb hreached, hwithin.cons fun a ha => ?_⟩
    exact (hwritten a ha).resolve_left not_mem_nil

end Setup

/-! ## Chunks -/

section Columns

variable {est r i : Nat} {regions : List Region} {builders : List (ColumnBuilder blockSize)}
  {chunk : Chunk} {m : Allocation blockSize}

theorem processColumns_spec
    (h : List.Forall₂ (fun region b => b.Reached est region r) regions builders)
    (hfits : chunkFits chunk i builders = true) (hrows : r + chunk.size ≤ est)
    (hsize : chunk.size < 2 ^ 32) :
    List.Forall₂ (fun region b => b.Reached est region (r + chunk.size)) regions
        (processColumns chunk r i builders m).1 ∧
      Within (fun region a => region.start ≤ a ∧ (a < region.mask ∨ MaskByte region.mask r chunk.size a))
        regions i (processColumns chunk r i builders m).2.2 := by
  induction h generalizing i m with
  | nil => exact ⟨.nil, fun _ _ hmem => absurd hmem not_mem_nil⟩
  | @cons region b _ _ hb _ ih =>
    rw [chunkFits, Bool.and_eq_true, Bool.or_eq_true] at hfits
    have hspace : isVarchar b.type = true →
        b.sufficientSpaceForColumn (chunk.data i) chunk.size = true :=
      fun hv => hfits.1.resolve_left (by simp [hv])
    obtain ⟨hreached, hwithin⟩ := ih hfits.2
    refine ⟨.cons (ColumnBuilder.processColumn_reached hb hspace) hreached,
      hwithin.cons fun a ha => ?_⟩
    have hstart := hb.start_le
    have hmask := hb.mask_eq
    rcases ColumnBuilder.mem_written_processColumn hb hspace hrows hsize ha with ha | ha | ha
    · exact absurd ha not_mem_nil
    · exact ⟨ha.1, .inl ha.2⟩
    · have hfrom := ha.1
      exact ⟨by omega, .inr ha⟩

def Chunk.valid (size : Nat) : Chunk := ⟨size, fun _ => ⟨fun _ => 0, fun _ => [], none⟩⟩

theorem chunkFits_valid (n : Nat)
    (h : List.Forall₂ (fun region b => b.Reached est region r) regions builders) :
    chunkFits (Chunk.valid n) i builders = true := by
  induction h generalizing i with
  | nil => rfl
  | @cons region b _ _ hb _ ih =>
    rw [chunkFits, ih, Bool.and_true, Bool.or_eq_true]
    by_cases hvarchar : isVarchar b.type = true
    · right
      apply decide_eq_true
      have hempty : ((Chunk.valid n).data i).stringBytes (Chunk.valid n).size = 0 :=
        FlatVector.stringBytes_of_empty (fun _ => rfl) _
      rw [if_pos hvarchar, hempty, Nat.zero_add]
      exact hb.fits hvarchar
    · left
      simpa using hvarchar

variable {region : Region}

/-- All bytes of the masks that belong to valid rows are written. -/
theorem mem_processColumns_valid {n a k : Nat}
    (h : List.Forall₂ (fun region b => b.Reached est region r) regions builders) (hn : n < 2 ^ 32)
    (hregion : regions[k]? = some region) (hfrom : region.mask + r / 8 ≤ a)
    (hto : a < region.mask + (r + n + 7) / 8) :
    (i + k, a) ∈ (processColumns (Chunk.valid n) r i builders m).2.2 := by
  induction h generalizing i m k with
  | nil => cases hregion
  | @cons first b _ _ hb _ ih =>
    apply mem_append.2
    cases k with
    | zero =>
      obtain rfl : first = region := Option.some.inj hregion
      left
      apply mem_map_of_mem
      exact ColumnBuilder.mem_written_processColumn_of_valid hb rfl hn hfrom hto
    | succ k =>
      right
      rw [← Nat.add_assoc, Nat.add_right_comm]
      exact ih hregion

end Columns

/-! ## The scan loop -/

def maxRows (est : Nat) : Nat := max standardVectorSize (est - 1)

/-- A scan that stays in the regions: in the masks, no byte is written behind the most rows. -/
structure ScanState.Inv (regions : List Region) (est : Nat) (s : ScanState blockSize) : Prop where
  estimate : s.estimatedRowsPerBatch = est
  reached : List.Forall₂ (fun region b => b.Reached est region s.rowOffset) regions s.builders
  writes : Within (fun region a => region.start ≤ a ∧ a < region.mask + (maxRows est + 7) / 8) regions 0
    s.writes

section Run

variable {regions : List Region} {est : Nat} {s s' : ScanState blockSize} {chunk : Chunk}
  {types : List LogicalType} {defaultVarcharSize : Nat}

def ScanState.Continues (est : Nat) (s : ScanState blockSize) : Prop :=
  s.rowOffset = 0 ∨ s.rowOffset + standardVectorSize < est

theorem ScanState.Inv.processChunk (h : s.Inv regions est) (hest : standardVectorSize ≤ est)
    (hcontinues : s.Continues est) (hsize : chunk.size ≤ standardVectorSize)
    (hfits : chunkFits chunk 0 s.builders = true) : (s.processChunk chunk).Inv regions est := by
  rw [Continues] at hcontinues
  rw [standardVectorSize] at hest hcontinues hsize
  obtain ⟨hreached, hwithin⟩ := processColumns_spec (m := s.allocation) h.reached hfits (by omega)
    (by omega)
  refine ⟨h.estimate, hreached, h.writes.append (hwithin.mono fun region a ha => ⟨ha.1, ?_⟩)⟩
  rw [maxRows, standardVectorSize]
  rcases ha.2 with ha | ha
  · omega
  · -- a byte without rows is written only for less than a full chunk, behind the first one
    rw [MaskByte] at ha
    omega

theorem continues_of_lt (h : ¬ (s.processChunk chunk).estimatedRowsPerBatch ≤
      standardVectorSize + (s.processChunk chunk).rowOffset) (hinv : (s.processChunk chunk).Inv regions est) :
    (s.processChunk chunk).Continues est := by
  rw [hinv.estimate] at h
  right
  omega

theorem ScanState.Inv.scanLoop {chunks : List Chunk} (h : s.Inv regions est)
    (hest : standardVectorSize ≤ est) (hcontinues : s.Continues est)
    (hsize : ∀ chunk ∈ chunks, chunk.size ≤ standardVectorSize)
    (hloop : HostTable.scanLoop chunks s = some s') : s'.Inv regions est := by
  induction chunks generalizing s with
  | nil =>
    cases hloop
    exact h
  | cons chunk chunks ih =>
    rw [HostTable.scanLoop] at hloop
    split at hloop
    · cases hloop
      exact h
    · obtain ⟨hfits, hloop⟩ := Option.ite_none_right_eq_some.1 hloop
      have hinv := h.processChunk hest hcontinues (hsize chunk mem_cons_self) hfits
      dsimp only at hloop
      split at hloop
      · cases hloop
        exact hinv
      next hlt =>
        exact ih hinv (continues_of_lt hlt hinv) (fun c hc => hsize c (mem_cons_of_mem _ hc)) hloop

/-- One chunk of valid rows is taken, and all bytes of the masks that belong to them are written. -/
theorem scanLoop_valid {n : Nat} (h : s.Inv regions est) (hne : n ≠ 0) (hn : n < 2 ^ 32) :
    scanLoop [Chunk.valid n] s = some (s.processChunk (.valid n)) ∧
      ∀ k region a, regions[k]? = some region → region.mask + s.rowOffset / 8 ≤ a →
        a < region.mask + (s.rowOffset + n + 7) / 8 → (k, a) ∈ (s.processChunk (.valid n)).writes := by
  constructor
  · rw [scanLoop, if_neg (show (Chunk.valid n).size ≠ 0 from hne), if_pos (chunkFits_valid n h.reached)]
    simp [scanLoop]
  · intro k region a hregion hfrom hto
    apply mem_append_right
    rw [← Nat.zero_add k]
    exact mem_processColumns_valid h.reached hn hregion hfrom hto

/-- The loop can take the most rows, and then writes the last byte for them. -/
theorem exists_scan_to_maxRows {k : Nat} {region : Region} (h : s.Inv regions est)
    (hest : standardVectorSize ≤ est) (hcontinues : s.Continues est) (hlt : s.rowOffset < maxRows est)
    (hregion : regions[k]? = some region) :
    ∃ chunks s', (∀ chunk ∈ chunks, chunk.size ≤ standardVectorSize) ∧ scanLoop chunks s = some s' ∧
      (k, region.mask + (maxRows est + 7) / 8 - 1) ∈ s'.writes := by
  obtain ⟨left, hleft⟩ : ∃ left, left = maxRows est - s.rowOffset := ⟨_, rfl⟩
  induction left using Nat.strongRecOn generalizing s with
  | _ left ih =>
    by_cases hlast : left ≤ standardVectorSize
    · -- the rows that are left are one chunk
      have hne : left ≠ 0 := by omega
      have hvector : standardVectorSize = 2048 := rfl
      obtain ⟨hloop, hwrites⟩ := scanLoop_valid h hne (by omega)
      refine ⟨_, _, by simpa [Chunk.valid] using hlast, hloop, hwrites k region _ hregion ?_ ?_⟩
      · omega
      · omega
    · -- otherwise a row is taken, and the loop goes on
      have hrow : (Chunk.valid 1).size ≤ standardVectorSize := by decide
      have hinv := h.processChunk hest hcontinues hrow (chunkFits_valid 1 h.reached)
      have hoffset : (s.processChunk (.valid 1)).rowOffset = s.rowOffset + 1 := rfl
      have hvector : standardVectorSize = 2048 := rfl
      rw [maxRows] at hlt hleft
      have hnext : ¬ est ≤ standardVectorSize + (s.rowOffset + 1) := by omega
      obtain ⟨chunks, s', hsize, hloop, hmem⟩ := ih (left - 1) (by omega) hinv
        (.inr (by omega)) (by rw [maxRows]; omega) (by rw [maxRows]; omega)
      refine ⟨.valid 1 :: chunks, s', forall_mem_cons.2 ⟨hrow, hsize⟩, ?_, hmem⟩
      rw [scanLoop, if_neg (show (Chunk.valid 1).size ≠ 0 by decide), if_pos (chunkFits_valid 1 h.reached)]
      dsimp only
      rw [hinv.estimate, hoffset, if_neg hnext, hloop]

theorem ScanState.inv_of_make (h : 0 < blockSize) {approximateBatchSize : Nat}
    {blocks : Nat → Memory}
    (hmake : ScanState.make h types approximateBatchSize defaultVarcharSize blocks = some s) :
    s.rowOffset = 0 ∧
      s.Inv (layout defaultVarcharSize
          (estimateRowsPerBatch types approximateBatchSize defaultVarcharSize) 0 types)
        (estimateRowsPerBatch types approximateBatchSize defaultVarcharSize) := by
  rw [ScanState.make] at hmake
  simp only [Option.bind_eq_bind, Option.bind_eq_some_iff, Prod.exists] at hmake
  obtain ⟨builders, allocation, writes, hbuilders, ⟨⟩⟩ := hmake
  obtain ⟨hreached, hwithin⟩ := initializeBuilders_spec h hbuilders
  refine ⟨rfl, rfl, hreached, hwithin.mono fun region a ha => ⟨ha.1, ?_⟩⟩
  omega

end Run

theorem le_estimateRowsPerBatch (types : List LogicalType)
    (approximateBatchSize defaultVarcharSize : Nat) :
    standardVectorSize ≤ estimateRowsPerBatch types approximateBatchSize defaultVarcharSize := by
  rw [estimateRowsPerBatch]
  exact Nat.le_max_right _ _

variable {types : List LogicalType} {defaultVarcharSize : Nat}

theorem ScanState.Inv.writes_in_regions {est : Nat} {s : ScanState blockSize}
    (h : s.Inv (layout defaultVarcharSize est 0 types) est) (hest : standardVectorSize ≤ est)
    {column a : Nat} (hmem : (column, a) ∈ s.writes) :
    ∃ region, (layout defaultVarcharSize est 0 types)[column]? = some region ∧
      (region.start ≤ a ∧ a < region.stop) ∧ a < region.mask + (maxRows est + 7) / 8 := by
  obtain ⟨region, -, hregion, hstart, ha⟩ := h.writes column a hmem
  have hstop := (start_layout (mem_of_getElem? hregion)).2.2
  have hmax : maxRows est ≤ est := by
    rw [maxRows]
    have hvector : standardVectorSize = 2048 := rfl
    omega
  exact ⟨region, hregion, ⟨hstart, by omega⟩, ha⟩

/-- **The layout and the allocation.** That the columns keep to their regions, and that these do not
overlap, is always so. -/
theorem scan_layout_iff (h : 0 < blockSize) (types : List LogicalType)
    (approximateBatchSize defaultVarcharSize : Nat) (blocks : Nat → Memory) {s₀ : ScanState blockSize}
    (hmake : ScanState.make h types approximateBatchSize defaultVarcharSize blocks = some s₀) :
    let est := estimateRowsPerBatch types approximateBatchSize defaultVarcharSize
    let regions := layout defaultVarcharSize est 0 types
    (∀ chunks s, (∀ chunk ∈ chunks, chunk.size ≤ standardVectorSize) → scanLoop chunks s₀ = some s →
      (∀ column a, (column, a) ∈ s.writes → a < approximateBatchSize ∧
        ∃ region, regions[column]? = some region ∧ region.start ≤ a ∧ a < region.stop) ∧
      regions.Pairwise fun x y => x.stop ≤ y.start) ↔
    ∀ last ∈ regions.getLast?, last.mask + (maxRows est + 7) / 8 ≤ approximateBatchSize := by
  intro est regions
  obtain ⟨hzero, hinv⟩ := ScanState.inv_of_make h hmake
  have hest : standardVectorSize ≤ est := le_estimateRowsPerBatch ..
  change s₀.Inv (layout defaultVarcharSize est 0 types) est at hinv
  clear_value est
  have hcontinues : s₀.Continues est := .inl hzero
  have hvector : standardVectorSize = 2048 := rfl
  constructor
  · intro hfits last hlast
    obtain ⟨before, hsplit⟩ := getLast?_eq_some_iff.1 hlast
    have hregion : regions[before.length]? = some last := by simp [hsplit]
    have hrows : s₀.rowOffset < maxRows est := by
      rw [hzero, maxRows]
      omega
    obtain ⟨chunks, s, hsize, hloop, hmem⟩ :=
      exists_scan_to_maxRows hinv hest hcontinues hrows hregion
    have hlt := ((hfits chunks s hsize hloop).1 _ _ hmem).1
    omega
  · intro hlast chunks s hsize hloop
    refine ⟨?_, pairwise_layout⟩
    intro column a hmem
    obtain ⟨region, hregion, hinside, ha⟩ :=
      (hinv.scanLoop hest hcontinues hsize hloop).writes_in_regions hest hmem
    refine ⟨?_, region, hregion, hinside⟩
    have hmem := mem_of_getElem? hregion
    have hends := getLast?_eq_some_getLast (ne_nil_of_mem hmem)
    have hbound := hlast _ hends
    have hle := mask_le_last hmem hends
    omega

/-- One BIGINT column in 36 kB. The estimate is 4096 rows. -/
theorem scan_layout_bigint :
    ∃ s₀, @ScanState.make 1024 (by decide) [⟨.bigint, 0, 0⟩] 36864 256 (fun _ _ => 0) = some s₀ ∧
      ∀ chunks s, (∀ chunk ∈ chunks, chunk.size ≤ standardVectorSize) → scanLoop chunks s₀ = some s →
        ∀ column a, (column, a) ∈ s.writes → a < 36864 := by
  obtain ⟨s₀, hmake⟩ := Option.isSome_iff_exists.1 (show
    (@ScanState.make 1024 (by decide) [⟨.bigint, 0, 0⟩] 36864 256 (fun _ _ => 0)).isSome = true by decide)
  refine ⟨s₀, hmake, fun chunks s hsize hloop column a hmem => ?_⟩
  have hfits := (scan_layout_iff (by decide) _ _ _ _ hmake).2 (by decide)
  exact ((hfits chunks s hsize hloop).1 column a hmem).1

/-- Eight BIGINT columns in 65 · 2049 bytes. The estimate is 2049 rows, but the mask of the last column
ends 55 bytes behind the allocation, and a chunk of 2048 rows writes its last byte. -/
theorem scan_layout_overrun :
    let types : List LogicalType := List.replicate 8 ⟨.bigint, 0, 0⟩
    estimateRowsPerBatch types 133185 256 = 2049 ∧
      ∃ s₀ s, @ScanState.make 1024 (by decide) types 133185 256 (fun _ _ => 0) = some s₀ ∧
        scanLoop [Chunk.valid 2048] s₀ = some s ∧ (7, 133239) ∈ s.writes := by
  refine ⟨by decide, ?_⟩
  obtain ⟨s₀, hmake⟩ := Option.isSome_iff_exists.1 (show
    (@ScanState.make 1024 (by decide) (replicate 8 ⟨.bigint, 0, 0⟩) 133185 256
      (fun _ _ => 0)).isSome = true by decide)
  obtain ⟨hzero, hinv⟩ := ScanState.inv_of_make _ hmake
  obtain ⟨hloop, hwrites⟩ := scanLoop_valid hinv (show 2048 ≠ 0 by decide) (by decide)
  refine ⟨s₀, _, hmake, hloop, ?_⟩
  rw [hzero] at hwrites
  exact hwrites 7 _ 133239 rfl (by decide) (by decide)

end Sirius.HostTable
