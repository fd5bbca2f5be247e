import Mathlib.Algebra.Order.BigOperators.Group.List
import Sirius.Native.Batches

/-!
# Staging

`stage_one_fixed_width_column` and `stage_one_varchar_column` run over the row groups of a split with a
row cursor. The segments that they return are those of the column, each moved by the number of rows
before its row group, as long as the split has fewer rows than a `uint32_t` can count. The runs that
are made of them have the same segments, in the same order.
-/

namespace Sirius.Native

open Lib List

/-! ## Staged columns -/

section Staged

variable {ci : Nat} {split : List RowGroupMetadata} {out : StagedColumn}

theorem u32_of_lt {n : Nat} (h : n < 2 ^ 32) : u32 n = n := Nat.mod_eq_of_lt h

def stagedColumn (ci : Nat) (out : StagedColumn) (split : List RowGroupMetadata) : StagedColumn :=
  split.foldl (fun out rg => rg.columns[ci]?.elim out (out.add rg.rowCount)) out

variable {rg : RowGroupMetadata} {s : StagedSegment}

theorem stagedColumn_cons {col : ColumnMetadata} (hcol : rg.columns[ci]? = some col) :
    stagedColumn ci out (rg :: split) = stagedColumn ci (out.add rg.rowCount col) split := by
  simp [stagedColumn, hcol]

/-- Column `ci` is there in every row group, and its validity can be staged. -/
def Stageable (ci : Nat) (split : List RowGroupMetadata) : Prop :=
  ∀ rg ∈ split, ∃ col, rg.columns[ci]? = some col ∧
    ∀ v ∈ col.validitySegments, isSupportedValidityCompression v.compression = true

theorem isValidityBitmap_eq_not {c : CompressionType} (h : isSupportedValidityCompression c = true) :
    isValidityBitmap c = !isConstantOrEmptyValidity c := by
  cases c <;> first | rfl | cases h

theorem foldlM_stageRowGroup {checkData : Nat → SegmentDescriptor → Except String Unit}
    {column : String} (hsplit : Stageable ci split) {result : StagedColumn} :
    split.foldlM (stageRowGroup checkData column ci) out = .ok result ↔
      (∀ rg ∈ split, ∀ col ∈ rg.columns[ci]?, ∀ seg ∈ col.dataSegments,
        checkData col.columnId seg = .ok ()) ∧ stagedColumn ci out split = result := by
  induction split generalizing out with
  | nil => simp [stagedColumn, pure, Except.pure]
  | cons rg split ih =>
    obtain ⟨col, hcol, hvalidity⟩ := hsplit rg (by simp)
    have hstaged : ∀ v ∈ col.stagedValidity,
        checkValiditySegment column col.columnId v = .ok () := by
      intro v hv
      obtain ⟨hv, hskip⟩ := mem_filter.1 hv
      rw [checkValiditySegment, refuseIf_eq_ok, isValidityBitmap_eq_not (hvalidity v hv), hskip]
      rfl
    have hstep : ∀ next, stageRowGroup checkData column ci out rg = .ok next ↔
        (∀ seg ∈ col.dataSegments, checkData col.columnId seg = .ok ()) ∧
          out.add rg.rowCount col = next := by
      intro next
      simp only [stageRowGroup, columnAt, hcol]
      rw [bind_eq_ok_iff]
      simp only [Except.ok.injEq, exists_eq_left', seq_eq_ok_iff, forM_eq_ok_iff, pure, Except.pure]
      exact and_congr_right fun _ => and_iff_right hstaged
    have hrest := fun rg' hrg' => hsplit rg' (.tail _ hrg')
    rw [foldlM_cons, bind_eq_ok_iff, forall_mem_cons, stagedColumn_cons hcol]
    simp only [hstep, and_assoc, exists_and_left, exists_eq_left', ih hrest, hcol,
      Option.mem_some_iff, forall_eq']

def withCursor : Nat → List RowGroupMetadata → List (Nat × RowGroupMetadata)
  | _, [] => []
  | cursor, rg :: split => (cursor, rg) :: withCursor (u32 (cursor + u32 rg.rowCount)) split

theorem stagedColumn_eq (hsplit : Stageable ci split) :
    (stagedColumn ci out split).data = out.data ++ (withCursor out.totalRows split).flatMap
      (fun (cursor, rg) => rg.columns[ci]?.toList.flatMap (·.dataSegments.map (stageData cursor))) ∧
    (stagedColumn ci out split).validity = out.validity ++ (withCursor out.totalRows split).flatMap
      (fun (cursor, rg) =>
        rg.columns[ci]?.toList.flatMap (·.stagedValidity.map (stageValidity cursor))) := by
  induction split generalizing out with
  | nil => simp [stagedColumn, withCursor]
  | cons rg split ih =>
    obtain ⟨col, hcol, -⟩ := hsplit rg (by simp)
    have hrest : Stageable ci split := fun rg' hrg' => hsplit rg' (.tail _ hrg')
    rw [stagedColumn_cons hcol, (ih hrest).1, (ih hrest).2]
    simp [withCursor, StagedColumn.add, hcol, append_assoc]

theorem totalRows_stagedColumn (hsplit : Stageable ci split)
    (hrows : out.totalRows + totalRows split < 2 ^ 32) :
    (stagedColumn ci out split).totalRows = out.totalRows + totalRows split := by
  induction split generalizing out with
  | nil => rfl
  | cons rg split ih =>
    obtain ⟨col, hcol, -⟩ := hsplit rg (by simp)
    have hsum : totalRows (rg :: split) = rg.rowCount + totalRows split := by simp [totalRows]
    have hadd : (out.add rg.rowCount col).totalRows = out.totalRows + rg.rowCount := by
      simp only [StagedColumn.add, u32]
      omega
    rw [stagedColumn_cons hcol, ih (fun rg' hrg' => hsplit rg' (.tail _ hrg')) (by omega), hadd]
    omega

theorem mem_withCursor {cursor k : Nat} (hrows : cursor + totalRows split < 2 ^ 32) :
    (k, rg) ∈ withCursor cursor split ↔
      ∃ before after, split = before ++ rg :: after ∧ k = cursor + totalRows before := by
  induction split generalizing cursor with
  | nil => simp [withCursor]
  | cons rg' split ih =>
    have hsum : totalRows (rg' :: split) = rg'.rowCount + totalRows split := by simp [totalRows]
    have hcursor : u32 (cursor + u32 rg'.rowCount) = cursor + rg'.rowCount := by
      simp only [u32]
      omega
    rw [withCursor, mem_cons, hcursor, ih (by omega)]
    constructor
    · rintro (⟨⟨⟩⟩ | ⟨before, after, rfl, rfl⟩)
      · exact ⟨[], split, rfl, rfl⟩
      · refine ⟨rg' :: before, after, rfl, ?_⟩
        simp [totalRows, Nat.add_assoc]
    · rintro ⟨before, after, hsplit, rfl⟩
      cases before with
      | nil =>
        cases hsplit
        exact .inl rfl
      | cons rg'' before =>
        cases hsplit
        refine .inr ⟨before, after, rfl, ?_⟩
        simp [totalRows, Nat.add_assoc]

theorem totalRows_split (before after : List RowGroupMetadata) (rg : RowGroupMetadata) :
    totalRows (before ++ rg :: after) = totalRows before + rg.rowCount + totalRows after := by
  simp [totalRows, Nat.add_assoc]

/-- A segment of the row group behind `before`, in the list that `segments` selects. -/
def SegmentAt (ci : Nat) (split : List RowGroupMetadata)
    (segments : ColumnMetadata → List SegmentDescriptor) (before : List RowGroupMetadata)
    (seg : SegmentDescriptor) : Prop :=
  ∃ rg after col, split = before ++ rg :: after ∧ rg.columns[ci]? = some col ∧ seg ∈ segments col

theorem mem_flatMap_withCursor (hrows : totalRows split < 2 ^ 32)
    {segments : ColumnMetadata → List SegmentDescriptor}
    {stage : Nat → SegmentDescriptor → StagedSegment} :
    s ∈ (withCursor 0 split).flatMap (fun (cursor, rg) =>
        rg.columns[ci]?.toList.flatMap fun col => (segments col).map (stage cursor)) ↔
      ∃ before seg, SegmentAt ci split segments before seg ∧ s = stage (totalRows before) seg := by
  have hrows : 0 + totalRows split < 2 ^ 32 := by omega
  simp only [mem_flatMap, Prod.exists, mem_withCursor hrows, Option.mem_toList, mem_map,
    Nat.zero_add]
  constructor
  · rintro ⟨_, rg, ⟨before, after, hsplit, rfl⟩, col, hcol, seg, hseg, rfl⟩
    exact ⟨before, seg, ⟨rg, after, col, hsplit, hcol, hseg⟩, rfl⟩
  · rintro ⟨before, seg, ⟨rg, after, col, hsplit, hcol, hseg⟩, rfl⟩
    exact ⟨_, rg, ⟨before, after, hsplit, rfl⟩, col, hcol, seg, hseg, rfl⟩

theorem mem_stagedColumn_data (hsplit : Stageable ci split) (hrows : totalRows split < 2 ^ 32) :
    s ∈ (stagedColumn ci {} split).data ↔
      ∃ before seg, SegmentAt ci split (·.dataSegments) before seg ∧
        s = stageData (totalRows before) seg := by
  rw [(stagedColumn_eq hsplit).1, nil_append]
  exact mem_flatMap_withCursor hrows

theorem mem_stagedColumn_validity (hsplit : Stageable ci split) (hrows : totalRows split < 2 ^ 32) :
    s ∈ (stagedColumn ci {} split).validity ↔
      ∃ before seg, SegmentAt ci split (·.stagedValidity) before seg ∧
        s = stageValidity (totalRows before) seg := by
  rw [(stagedColumn_eq hsplit).2, nil_append]
  exact mem_flatMap_withCursor hrows

/-- Without a bitmap there is no validity to stage. -/
theorem validity_eq_nil_of_hasNulls_eq_false (hsplit : Stageable ci split)
    (hout : out.hasNulls = false → out.validity = [])
    (h : (stagedColumn ci out split).hasNulls = false) :
    (stagedColumn ci out split).validity = [] := by
  induction split generalizing out with
  | nil => exact hout h
  | cons rg split ih =>
    obtain ⟨col, hcol, hvalidity⟩ := hsplit rg (by simp)
    rw [stagedColumn_cons hcol] at h ⊢
    refine ih (fun rg' hrg' => hsplit rg' (.tail _ hrg')) (fun hadd => ?_) h
    simp only [StagedColumn.add, Bool.or_eq_false_iff] at hadd
    have hnone : col.stagedValidity = [] := by
      refine filter_eq_nil_iff.2 fun v hv hkeep => ?_
      have hbitmap := any_eq_false.1 hadd.2 v hv
      rw [isValidityBitmap_eq_not (hvalidity v hv)] at hbitmap
      exact hbitmap hkeep
    simp [StagedColumn.add, hout hadd.1, hnone]

/-- The space that the decoder reserves for the characters is what the walker has computed. -/
theorem sum_chars_stagedColumn_le (hsplit : ∀ rg ∈ split, ∃ col, rg.columns[ci]? = some col ∧
      rg.varcharBytesPerCol[ci]? = some col.charsUpperBound) :
    ((stagedColumn ci out split).data.map fun s => s.rowCount * s.maxStringLength).sum ≤
      (out.data.map fun s => s.rowCount * s.maxStringLength).sum + charsOf ci split := by
  induction split generalizing out with
  | nil => exact Nat.le_refl _
  | cons rg split ih =>
    obtain ⟨col, hcol, hbytes⟩ := hsplit rg (by simp)
    have hchars : charsOf ci (rg :: split) = col.charsUpperBound + charsOf ci split := by
      simp [charsOf, hbytes]
    have hle : ((col.dataSegments.map (stageData out.totalRows)).map fun s =>
        s.rowCount * s.maxStringLength).sum ≤ col.charsUpperBound := by
      rw [map_map]
      refine sum_le_sum fun seg _ => ?_
      exact Nat.mul_le_mul_right _ (Nat.mod_le _ _)
    rw [stagedColumn_cons hcol, hchars]
    refine (ih fun rg' hrg' => hsplit rg' (.tail _ hrg')).trans ?_
    simp only [StagedColumn.add, map_append, sum_append]
    omega

theorem rowOffset_stageData {before : List RowGroupMetadata} {after : List RowGroupMetadata}
    {seg : SegmentDescriptor} (hsplit : split = before ++ rg :: after)
    (hrows : totalRows split < 2 ^ 32) (hseg : seg.segmentStart + seg.segmentCount ≤ rg.rowCount) :
    (stageData (totalRows before) seg).rowOffset = totalRows before + seg.segmentStart ∧
      (stageData (totalRows before) seg).rowCount = seg.segmentCount ∧
      totalRows before + seg.segmentStart + seg.segmentCount ≤ totalRows split := by
  subst hsplit
  rw [totalRows_split] at hrows ⊢
  refine ⟨?_, ?_, by omega⟩
  · simp only [stageData, u32]
    omega
  · simp only [stageData, u32]
    omega

end Staged

/-! ## Runs -/

section Runs

variable {D : Type} {toDesc : StagedSegment → D}

def CodecRun.pairs (runs : List (CodecRun D)) : List (CompressionType × D) :=
  runs.flatMap fun run => run.segments.map (run.codec, ·)

theorem pairs_addToRuns (runs : List (CodecRun D)) (s : StagedSegment) :
    CodecRun.pairs (addToRuns toDesc runs s) =
      CodecRun.pairs runs ++ [(s.compression, toDesc s)] := by
  induction runs using reverseRecOn with
  | nil => rfl
  | append_singleton runs run _ =>
    simp only [addToRuns, getLast?_concat, dropLast_concat]
    split
    next hcodec => simp [CodecRun.pairs, hcodec]
    next => simp [CodecRun.pairs]

theorem pairs_fillRuns (staged : List StagedSegment) :
    CodecRun.pairs (fillRuns toDesc staged) = staged.map fun s => (s.compression, toDesc s) := by
  induction staged using reverseRecOn with
  | nil => rfl
  | append_singleton staged s ih =>
    rw [fillRuns, foldl_append, map_append, ← ih]
    exact pairs_addToRuns _ s

variable {s : StagedSegment} {staged : List StagedSegment}

theorem segments_ne_nil_of_mem_addToRuns {runs : List (CodecRun D)}
    (h : ∀ run ∈ runs, run.segments ≠ []) {run : CodecRun D} (hrun : run ∈ addToRuns toDesc runs s) :
    run.segments ≠ [] := by
  unfold addToRuns at hrun
  split at hrun
  · obtain rfl := mem_singleton.1 hrun
    exact cons_ne_nil _ _
  · split at hrun
    · rcases mem_append.1 hrun with hrun | hrun
      · exact h run ((dropLast_sublist runs).subset hrun)
      · obtain rfl := mem_singleton.1 hrun
        simp
    · rcases mem_append.1 hrun with hrun | hrun
      · exact h run hrun
      · obtain rfl := mem_singleton.1 hrun
        exact cons_ne_nil _ _

theorem segments_ne_nil_of_mem_fillRuns {run : CodecRun D} (hrun : run ∈ fillRuns toDesc staged) :
    run.segments ≠ [] := by
  induction staged using reverseRecOn generalizing run with
  | nil => cases hrun
  | append_singleton staged s ih =>
    rw [fillRuns, foldl_append] at hrun
    exact segments_ne_nil_of_mem_addToRuns (fun run hrun => ih hrun) hrun

theorem forall_mem_fillRuns (P : CompressionType → D → Prop) :
    (∀ run ∈ fillRuns toDesc staged, ∀ d ∈ run.segments, P run.codec d) ↔
      ∀ s ∈ staged, P s.compression (toDesc s) := by
  have hpairs : (∀ run ∈ fillRuns toDesc staged, ∀ d ∈ run.segments, P run.codec d) ↔
      ∀ p ∈ CodecRun.pairs (fillRuns toDesc staged), P p.1 p.2 := by
    simp [CodecRun.pairs]
    grind
  rw [hpairs, pairs_fillRuns, forall_mem_map]

theorem forall_codec_fillRuns (P : CompressionType → Prop) :
    (∀ run ∈ fillRuns toDesc staged, P run.codec) ↔ ∀ s ∈ staged, P s.compression := by
  have hiff : (∀ run ∈ fillRuns toDesc staged, ∀ _ ∈ run.segments, P run.codec) ↔
      ∀ s ∈ staged, P s.compression := forall_mem_fillRuns fun codec _ => P codec
  rw [← hiff]
  constructor
  · exact fun h run hrun _ _ => h run hrun
  · intro h run hrun
    obtain ⟨d, hd⟩ := exists_mem_of_ne_nil _ (segments_ne_nil_of_mem_fillRuns hrun)
    exact h run hrun d hd

theorem flatMap_segments_fillRuns (staged : List StagedSegment) :
    (fillRuns toDesc staged).flatMap (·.segments) = staged.map toDesc := by
  calc (fillRuns toDesc staged).flatMap (·.segments)
      = (CodecRun.pairs (fillRuns toDesc staged)).map Prod.snd := by
        simp [CodecRun.pairs, map_flatMap, Function.comp_def]
    _ = staged.map toDesc := by
        rw [pairs_fillRuns, map_map]
        rfl

end Runs

end Sirius.Native
