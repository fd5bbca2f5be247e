import Sirius.Native.CoalescedReads
import Sirius.Native.Metadata

/-!
# Sizes of segments

DuckDB does not tell how large a segment is. `compute_segment_bytes_size` takes the bytes up to the
next walked segment of the same block, or up to the end of the block.

The descriptors are behind pointers, which are sorted by the places of the segments. Of a descriptor
the loop writes only the size, so that the size of a segment depends on the one behind it alone.
`segment_sizes_safe` says that no size is too small, and that the segments are still apart.
-/

namespace Sirius.Native.SegmentSizes

/-- A column, with pointers to its descriptors. -/
structure ColumnMetadata (P : Type) where
  dataSegments : List P
  validitySegments : List P

/-- The walked metadata, with the fields of a descriptor by its pointer. -/
structure Metadata (P : Type) where
  rowGroups : List (List (ColumnMetadata P))
  nodup : (rowGroups.flatMap (·.flatMap fun col => col.dataSegments ++ col.validitySegments)).Nodup
  blockId : P → Int
  blockOffset : P → Nat
  bytesSize : P → Nat := fun _ => 0

namespace Metadata

section Sizes

variable {P : Type} (md : Metadata P) (blockSize : Nat)

/-- `refs`, before it is sorted. -/
def refs : List P :=
  (md.rowGroups.flatMap (·.flatMap fun col => col.dataSegments ++ col.validitySegments)).filter
    fun p => 0 ≤ md.blockId p

def less (p q : P) : Bool :=
  if md.blockId p ≠ md.blockId q then md.blockId p < md.blockId q
  else md.blockOffset p < md.blockOffset q

def sortedRefs : List P := md.refs.mergeSort fun p q => !md.less q p

/-- `end` for a segment, by the segments behind it. -/
def stop (p : P) : List P → Nat
  | [] => blockSize
  | q :: _ => if md.blockId q ≠ md.blockId p then blockSize else md.blockOffset q

def assignSizes [DecidableEq P] : List P → (P → Nat) → P → Nat
  | [], sizes => sizes
  | p :: rest, sizes =>
    assignSizes rest
      (Function.update sizes p (sizeSub (md.stop blockSize p rest) (md.blockOffset p)))

def computeSegmentBytesSize [DecidableEq P] : Metadata P :=
  { md with bytesSize := md.assignSizes blockSize md.sortedRefs md.bytesSize }

/-- Segments of the given sizes have places of their own in their blocks. -/
structure OnDisk (size : P → Nat) : Prop where
  inside : ∀ p ∈ md.refs, md.blockOffset p + size p ≤ blockSize
  distinct : ∀ p ∈ md.refs, ∀ q ∈ md.refs, p ≠ q → md.blockId p = md.blockId q →
    md.blockOffset p ≠ md.blockOffset q
  disjoint : ∀ p ∈ md.refs, ∀ q ∈ md.refs, p ≠ q → md.blockId p = md.blockId q →
    md.blockOffset p + size p ≤ md.blockOffset q ∨ md.blockOffset q + size q ≤ md.blockOffset p

/-- A derived size ends at the next segment of the block, or at the end of the block. -/
structure EndsAt (ps : List P) (p : P) (stop : Nat) : Prop where
  eq : stop = blockSize ∨ ∃ q ∈ ps, md.blockId p = md.blockId q ∧
    md.blockOffset p < md.blockOffset q ∧ stop = md.blockOffset q
  le : ∀ q ∈ ps, md.blockId p = md.blockId q → md.blockOffset p < md.blockOffset q →
    stop ≤ md.blockOffset q

end Sizes

/-! ## The metadata of the walk -/

/-- The descriptors of the walked row groups, in the order of the loops. -/
def descriptors (rowGroups : List RowGroupMetadata) : List SegmentDescriptor :=
  rowGroups.flatMap (·.columns.flatMap fun col => col.dataSegments ++ col.validitySegments)

/-- Pointers are the numbers of the descriptors. -/
def ofWalk (rowGroups : List RowGroupMetadata) (blockOffset : Fin (descriptors rowGroups).length → Nat) :
    Metadata (Fin (descriptors rowGroups).length) where
  rowGroups := [[⟨List.finRange _, []⟩]]
  nodup := by simpa using List.nodup_finRange _
  blockId p := (descriptors rowGroups)[p].blockId
  blockOffset

/-- `refs` has the walked descriptors that are in a block. -/
theorem map_refs_ofWalk (rowGroups : List RowGroupMetadata)
    (blockOffset : Fin (descriptors rowGroups).length → Nat) :
    (ofWalk rowGroups blockOffset).refs.map (descriptors rowGroups).get =
      (descriptors rowGroups).filter fun d => 0 ≤ d.blockId := by
  conv_rhs => rw [← List.map_get_finRange (descriptors rowGroups), List.filter_map]
  simp only [refs, ofWalk, List.flatMap_singleton, List.append_nil]
  rfl

/-! ## The loop -/

variable {P : Type} {md : Metadata P} {blockSize : Nat} {ps : List P} {p q : P}

theorem less_iff : md.less p q ↔ md.blockId p < md.blockId q ∨
    md.blockId p = md.blockId q ∧ md.blockOffset p < md.blockOffset q := by
  grind [less]

theorem EndsAt.cons {stop : Nat} (h : md.EndsAt blockSize ps p stop) (hq : ¬ md.less p q) :
    md.EndsAt blockSize (q :: ps) p stop where
  eq := h.eq.imp_right fun ⟨r, hr, hnext⟩ => ⟨r, List.mem_cons_of_mem _ hr, hnext⟩
  le := by
    intro r hr hsame hlt
    rcases List.mem_cons.mp hr with rfl | hr
    · exact absurd (less_iff.mpr (.inr ⟨hsame, hlt⟩)) hq
    · exact h.le r hr hsame hlt

theorem endsAt_stop (hp : ∀ q ∈ ps, md.less p q) (hps : ps.Pairwise (md.less · ·)) :
    md.EndsAt blockSize ps p (md.stop blockSize p ps) := by
  cases ps with
  | nil => exact ⟨.inl rfl, by simp⟩
  | cons q rest =>
    have hpq := less_iff.mp (hp q List.mem_cons_self)
    have hq r (hr : r ∈ rest) := less_iff.mp (List.rel_of_pairwise_cons hps hr)
    rw [stop]
    split
    · -- The block of the next segment comes later, and so do all others.
      refine ⟨.inl rfl, fun r hr hsame _ => ?_⟩
      rcases List.mem_cons.mp hr with rfl | hr
      · omega
      · have := hq r hr
        omega
    · refine ⟨.inr ⟨q, List.mem_cons_self, by omega⟩, fun r hr hsame _ => ?_⟩
      rcases List.mem_cons.mp hr with rfl | hr
      · rfl
      · have := hq r hr
        omega

variable [DecidableEq P]

theorem assignSizes_of_notMem (h : p ∉ ps) (sizes : P → Nat) :
    md.assignSizes blockSize ps sizes p = sizes p := by
  induction ps generalizing sizes with
  | nil => rfl
  | cons q rest ih =>
    rw [List.mem_cons, not_or] at h
    rw [assignSizes, ih h.2, Function.update_of_ne h.1]

theorem endsAt_assignSizes (hps : ps.Pairwise (md.less · ·))
    (hinside : ∀ p ∈ ps, md.blockOffset p ≤ blockSize) (hblockSize : blockSize < 2 ^ 64)
    (hp : p ∈ ps) (sizes : P → Nat) :
    md.EndsAt blockSize ps p (md.blockOffset p + md.assignSizes blockSize ps sizes p) := by
  induction ps generalizing sizes with
  | nil => nomatch hp
  | cons q rest ih =>
    obtain ⟨hq, hrest⟩ := List.pairwise_cons.mp hps
    have hinside' r (hr : r ∈ rest) := hinside r (List.mem_cons_of_mem _ hr)
    rcases List.mem_cons.mp hp with rfl | hmem
    · have hirrefl : ¬ md.less p p := by grind [less]
      have hends : md.EndsAt blockSize rest p (md.stop blockSize p rest) := endsAt_stop hq hrest
      have hsize : md.blockOffset p + sizeSub (md.stop blockSize p rest) (md.blockOffset p) =
          md.stop blockSize p rest := by
        have := hinside p hp
        unfold sizeSub
        rcases hends.eq with heq | ⟨r, hr, -, hlt, heq⟩
        · omega
        · have := hinside' r hr
          omega
      rw [assignSizes, assignSizes_of_notMem fun hmem => hirrefl (hq p hmem), Function.update_self,
        hsize]
      exact hends.cons hirrefl
    · exact (ih hrest hinside' hmem _).cons (by grind [less])

/-! ## The derived sizes -/

variable {size : P → Nat} (h : md.OnDisk blockSize size)

include h

omit [DecidableEq P] in
theorem pairwise_sortedRefs : md.sortedRefs.Pairwise (md.less · ·) := by
  have hsorted : md.sortedRefs.Pairwise fun p q => !md.less q p :=
    List.pairwise_mergeSort (by grind [less]) (by grind [less]) _
  have hnodup : md.sortedRefs.Nodup := (List.mergeSort_perm ..).nodup_iff.mpr (md.nodup.filter _)
  refine (hsorted.and hnodup).imp_of_mem fun hp hq ⟨hle, hne⟩ => ?_
  have := h.distinct _ (List.mem_mergeSort.mp hp) _ (List.mem_mergeSort.mp hq) hne
  grind [less]

theorem endsAt_computeSegmentBytesSize (hblockSize : blockSize < 2 ^ 64) (hp : p ∈ md.refs) :
    md.EndsAt blockSize md.refs p
      (md.blockOffset p + (md.computeSegmentBytesSize blockSize).bytesSize p) := by
  have hmem {q : P} : q ∈ md.sortedRefs ↔ q ∈ md.refs := List.mem_mergeSort
  have hends := endsAt_assignSizes (pairwise_sortedRefs h)
    (fun q hq => Nat.le_of_add_right_le (h.inside q (hmem.mp hq))) hblockSize (hmem.mpr hp)
    md.bytesSize
  exact ⟨hends.eq.imp_right fun ⟨q, hq, hnext⟩ => ⟨q, hmem.mp hq, hnext⟩,
    fun q hq => hends.le q (hmem.mpr hq)⟩

/-- **Safe upper bounds.** No derived size is too small, and with these sizes the segments still
have places of their own. -/
theorem segment_sizes_safe (hblockSize : blockSize < 2 ^ 64) :
    (∀ p ∈ md.refs, size p ≤ (md.computeSegmentBytesSize blockSize).bytesSize p) ∧
      md.OnDisk blockSize (md.computeSegmentBytesSize blockSize).bytesSize := by
  have hends p (hp : p ∈ md.refs) := endsAt_computeSegmentBytesSize h hblockSize hp
  refine ⟨?_, ?_, h.distinct, ?_⟩
  · intro p hp
    have := h.inside p hp
    rcases (hends p hp).eq with heq | ⟨q, hq, hsame, hlt, heq⟩
    · omega
    · have := h.disjoint p hp q hq (by rintro rfl; exact hlt.false) hsame
      omega
  · intro p hp
    rcases (hends p hp).eq with heq | ⟨q, hq, -, -, heq⟩
    · exact heq.le
    · exact heq.le.trans (Nat.le_of_add_right_le (h.inside q hq))
  · intro p hp q hq hne hsame
    rcases Nat.lt_or_gt_of_ne (h.distinct p hp q hq hne hsame) with hlt | hlt
    · exact .inl ((hends p hp).le q hq hsame hlt)
    · exact .inr ((hends q hq).le p hp hsame.symm hlt)

omit h [DecidableEq P]

/-- One column, with its data and its validity in one block. -/
def oneColumn : Metadata Bool where
  rowGroups := [[⟨[false], [true]⟩]]
  nodup := by decide
  blockId _ := 3
  blockOffset validity := if validity then 16 else 0

theorem segment_sizes_safe_oneColumn :
    (∀ p ∈ oneColumn.refs, 10 ≤ (oneColumn.computeSegmentBytesSize 256).bytesSize p) ∧
      oneColumn.OnDisk 256 (oneColumn.computeSegmentBytesSize 256).bytesSize :=
  segment_sizes_safe ⟨by decide, by decide, by decide⟩ (by decide)

end Metadata

end Sirius.Native.SegmentSizes
