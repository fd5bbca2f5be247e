import Sirius.Aggregate.Ungrouped

/-!
# Partial results of an ungrouped aggregation

The partial columns of an aggregate stand side by side in every partial row, at the place that the
layout gives it. So the operators work on each aggregate by itself (`ungroupedAggregate_eq_ok_iff`).
-/

namespace Sirius.Aggregate

open Lib List
open Sirius.Sort (Row)
open Sirius.Expression (DataType)

variable {V : Type} [LinearOrder V] {P : Cudf V} {schema : List DataType}
  {aggregates : List (Option UngroupedNode)} {layout : AggregateLayout} {spec : AggregateSpec}

/-! ## Places -/

def Placed (specs : List AggregateSpec) : Prop :=
  ∀ before spec after, specs = before ++ spec :: after →
    spec.localSumIdx = (before.flatMap (·.kind.mergeKinds)).length ∧
      spec.localCountIdx = spec.localSumIdx + 1

variable {specs : List AggregateSpec}

theorem Placed.append (h : Placed specs)
    (hsum : spec.localSumIdx = (specs.flatMap (·.kind.mergeKinds)).length)
    (hcount : spec.localCountIdx = spec.localSumIdx + 1) : Placed (specs ++ [spec]) := by
  intro before spec' after heq
  rcases eq_nil_or_concat after with rfl | ⟨after, last, rfl⟩
  · obtain ⟨rfl, rfl⟩ : specs = before ∧ spec = spec' := by simpa using heq
    exact ⟨hsum, hcount⟩
  · rw [concat_eq_append, ← cons_append, ← append_assoc] at heq
    exact h before spec' after (append_inj' heq rfl).1

def Describes (aggregate : Option UngroupedNode) (spec : AggregateSpec) : Prop :=
  ∃ aggr, aggregate = some aggr ∧ aggr.input = .ok (spec.kind, spec.inputIdx, spec.returnType)

structure AggregateLayout.Laid (layout : AggregateLayout)
    (aggregates : List (Option UngroupedNode)) : Prop where
  describes : List.Forall₂ Describes aggregates layout.aggregates
  placed : Placed layout.aggregates
  mergeKinds_eq : layout.mergeKinds = layout.aggregates.flatMap (·.kind.mergeKinds)
  hasAvg_eq : layout.hasAvg = layout.aggregates.any (·.kind == .avg)

theorem AggregateLayout.Laid.addAggregate {layout' : AggregateLayout}
    {aggregate : Option UngroupedNode} (h : layout.Laid aggregates)
    (hadd : addAggregate layout aggregate = .ok layout') :
    layout'.Laid (aggregates ++ [aggregate]) := by
  unfold Aggregate.addAggregate at hadd
  split at hadd
  · cases hadd
  next aggr =>
    split at hadd
    · cases hadd
    split at hadd
    · cases hadd
    obtain ⟨⟨kind, inputIdx, returnType⟩, hinput, ⟨⟩⟩ := bind_eq_ok_iff.1 hadd
    exact {
      describes := rel_append h.describes (.cons ⟨aggr, rfl, hinput⟩ .nil)
      placed := h.placed.append (by rw [h.mergeKinds_eq]) rfl
      mergeKinds_eq := by simp [h.mergeKinds_eq]
      hasAvg_eq := by simp [h.hasAvg_eq] }

/-- **The layout** gives every aggregate a place of its own. -/
theorem laid_of_buildAggregateLayout (h : buildAggregateLayout aggregates = .ok layout) :
    layout.Laid aggregates :=
  foldlM_rec (P := fun done layout => layout.Laid done) h ⟨.nil, by simp [Placed], rfl, rfl⟩
    fun _ _ _ _ _ hlaid => hlaid.addAggregate

theorem Placed.getElem?_flatten {γ : Type} (h : Placed specs) {F : AggregateSpec → List γ}
    (hF : ∀ s ∈ specs, (F s).length = s.kind.mergeKinds.length) (hs : spec ∈ specs) {j : Nat}
    (hj : j < spec.kind.mergeKinds.length) :
    (specs.map F).flatten[spec.localSumIdx + j]? = (F spec)[j]? := by
  obtain ⟨before, after, rfl⟩ := append_of_mem hs
  have hlen : (before.map F).flatten.length = spec.localSumIdx := by
    rw [(h before spec after rfl).1, List.length_flatten, List.length_flatMap, List.map_map]
    exact congrArg _ (map_congr_left fun s hs => hF s (by simp [hs]))
  rw [map_append, flatten_append, ← hlen,
    getElem?_append_right (Nat.le_add_right ..), Nat.add_sub_cancel_left, map_cons,
    flatten_cons, getElem?_append_left (by rw [hF spec hs]; exact hj)]

/-! ## One aggregate -/

theorem length_localColumns {rows : List (Row V)} {cols : List (Scalar V)}
    (h : spec.localColumns P schema rows = .ok cols) :
    cols.length = spec.kind.mergeKinds.length := by
  unfold AggregateSpec.localColumns at h
  split at h
  case h_1 hk =>
    cases h
    simp [hk, AggregateKind.mergeKinds]
  case h_2 hk | h_3 hk =>
    obtain ⟨col, -, h⟩ := bind_eq_ok_iff.1 h
    obtain ⟨s, -, ⟨⟩⟩ := bind_eq_ok_iff.1 h
    simp [hk, AggregateKind.mergeKinds]
  case h_4 =>
    obtain ⟨col, -, h⟩ := bind_eq_ok_iff.1 h
    obtain ⟨out, -, h⟩ := bind_eq_ok_iff.1 h
    obtain ⟨s, -, ⟨⟩⟩ := bind_eq_ok_iff.1 h
    cases hk : spec.kind <;> simp_all [AggregateKind.mergeKinds]

variable (P)

def AggregateSpec.mergeColumns (spec : AggregateSpec) (parts : List (List (Scalar V))) :
    Except Failure (List (Scalar V)) :=
  spec.kind.mergeKinds.zipIdx.mapM fun (kind, c) => do
    mergeColumn P kind (← P.concatenate (← partialColumn parts c))

def AggregateSpec.merged (spec : AggregateSpec) (parts : List (List (Scalar V))) :
    Except Failure (List (Scalar V)) :=
  match parts with
  | [part] => .ok part
  | _ => spec.mergeColumns P parts

def AggregateSpec.finish (spec : AggregateSpec) (merged : List (Scalar V)) :
    Except Failure (Output V) :=
  if spec.kind = .avg then do
    makeAvgColumn P (← mergedColumn merged 0) (← mergedColumn merged 1) spec.returnType
  else do return .column (← mergedColumn merged 0)

def AggregateSpec.result (spec : AggregateSpec) (schema : List DataType)
    (batches : List (List (Row V))) : Except Failure (Output V) := do
  let parts ← batches.mapM fun rows => spec.localColumns P schema rows
  spec.finish P (← spec.merged P parts)

variable {P}

/-! ## Side by side -/

omit [LinearOrder V] in
theorem partialColumn_flatten (h : Placed specs) {ι : Type} {keys : List ι}
    {F : ι → AggregateSpec → List (Scalar V)}
    (hF : ∀ b ∈ keys, ∀ s ∈ specs, (F b s).length = s.kind.mergeKinds.length) (hs : spec ∈ specs)
    {j : Nat} (hj : j < spec.kind.mergeKinds.length) :
    partialColumn (keys.map fun b => (specs.map (F b)).flatten) (spec.localSumIdx + j) =
      partialColumn (keys.map fun b => F b spec) j := by
  unfold partialColumn
  rw [mapM_map, mapM_map]
  refine mapM_congr fun b hb => ?_
  simp only [Function.comp_apply]
  rw [h.getElem?_flatten (hF b hb) hs hj]

theorem mergeUngroupedAggregate_flatten (h : layout.Laid aggregates) {ι : Type} {keys : List ι}
    {F : ι → AggregateSpec → List (Scalar V)}
    (hF : ∀ b ∈ keys, ∀ s ∈ layout.aggregates, (F b s).length = s.kind.mergeKinds.length)
    (hkeys : 2 ≤ keys.length) :
    mergeUngroupedAggregate P (keys.map fun b => (layout.aggregates.map (F b)).flatten)
        layout.mergeKinds =
      Except.map List.flatten
        (layout.aggregates.mapM fun s => s.mergeColumns P (keys.map fun b => F b s)) := by
  have hlen (b : ι) (hb : b ∈ keys) :
      (layout.aggregates.map (F b)).flatten.length = layout.mergeKinds.length := by
    rw [h.mergeKinds_eq, List.length_flatten, List.length_flatMap, List.map_map]
    exact congrArg _ (map_congr_left fun s hs => hF b hb s hs)
  unfold mergeUngroupedAggregate
  rw [if_neg (by rw [length_map]; omega), if_neg, h.mergeKinds_eq]
  · refine mapM_flatMap_zipIdx fun before s after heq kind j hj => ?_
    have hs : s ∈ layout.aggregates := by simp [heq]
    have hj := (List.getElem?_eq_some_iff.1 hj).1
    simp only
    rw [Nat.zero_add, ← (h.placed before s after heq).1, partialColumn_flatten h.placed hF hs hj]
  · obtain ⟨b, keys, rfl⟩ := exists_cons_of_length_pos (Nat.lt_of_lt_of_le Nat.two_pos hkeys)
    simpa using hlen b (by simp)

variable {F : AggregateSpec → List (Scalar V)}

theorem output_flatten (h : Placed layout.aggregates)
    (hF : ∀ s ∈ layout.aggregates, (F s).length = s.kind.mergeKinds.length)
    (hs : spec ∈ layout.aggregates) :
    spec.output P (layout.aggregates.map F).flatten = spec.finish P (F spec) := by
  have hread (j : Nat) (hj : j < spec.kind.mergeKinds.length) :
      mergedColumn (layout.aggregates.map F).flatten (spec.localSumIdx + j) =
        mergedColumn (F spec) j := by
    unfold mergedColumn
    rw [h.getElem?_flatten hF hs hj]
  have hcount : spec.localCountIdx = spec.localSumIdx + 1 := by
    obtain ⟨before, after, heq⟩ := append_of_mem hs
    exact (h before spec after heq).2
  unfold AggregateSpec.output AggregateSpec.finish
  rw [hcount]
  split
  next hk =>
    rw [hread 1 (by simp [hk, AggregateKind.mergeKinds]), ← hread 0 (by simp [hk, AggregateKind.mergeKinds])]
    rfl
  · rw [← hread 0 (by cases spec.kind <;> simp [AggregateKind.mergeKinds])]
    rfl

theorem finish_of_no_avg (h : specs.any (·.kind == .avg) = false)
    (hF : ∀ s ∈ specs, (F s).length = s.kind.mergeKinds.length) :
    specs.mapM (fun s => s.finish P (F s)) = .ok ((specs.map F).flatten.map .column) := by
  induction specs with
  | nil => rfl
  | cons s specs ih =>
    rw [any_cons, Bool.or_eq_false_iff] at h
    have hk : s.kind ≠ .avg := by simpa using h.1
    obtain ⟨x, hx⟩ : ∃ x, F s = [x] := by
      have := hF s (by simp)
      rw [← length_eq_one_iff, this]
      cases hkind : s.kind <;> first | exact absurd hkind hk | rfl
    have hs : s.finish P (F s) = .ok (.column x) := by
      rw [AggregateSpec.finish, if_neg hk, hx]
      rfl
    rw [mapM_cons, hs, ih h.2 fun s hs => hF s (.tail _ hs), map_cons,
      flatten_cons, hx]
    rfl

def valueOf {α : Type} [Inhabited α] (x : Except Failure α) : α := x.toOption.getD default

theorem eq_ok_valueOf {α : Type} [Inhabited α] {x : Except Failure α} (h : ∃ a, x = .ok a) :
    x = .ok (valueOf x) := by
  obtain ⟨a, rfl⟩ := h
  rfl

theorem length_merged {parts : List (List (Scalar V))} {merged : List (Scalar V)}
    (hparts : ∀ part ∈ parts, part.length = spec.kind.mergeKinds.length)
    (h : spec.merged P parts = .ok merged) : merged.length = spec.kind.mergeKinds.length := by
  unfold AggregateSpec.merged at h
  split at h
  · cases h
    exact hparts _ (by simp)
  · rw [← (mapM_eq_ok_iff.1 h).length_eq, length_zipIdx]

section Rows

variable {batches : List (List (Row V))} {F : List (Row V) → AggregateSpec → List (Scalar V)}
  {G : AggregateSpec → List (Scalar V)}

theorem localRow_eq_ok_iff {rows : List (Row V)} {row : List (Scalar V)} :
    layout.localRow P schema rows = .ok row ↔
      ∃ blocks, layout.aggregates.mapM (fun s => s.localColumns P schema rows) = .ok blocks ∧
        blocks.flatten = row := by
  unfold AggregateLayout.localRow
  simp only [bind_eq_ok_iff, pure, Except.pure, Except.ok.injEq]

section

variable (h : layout.Laid aggregates)

include h

theorem mergedRow_flatten (hbatches : batches ≠ [])
    (hF : ∀ b ∈ batches, ∀ s ∈ layout.aggregates, (F b s).length = s.kind.mergeKinds.length) :
    layout.mergedRow P (batches.map fun b => (layout.aggregates.map (F b)).flatten) =
      Except.map flatten
        (layout.aggregates.mapM fun s => s.merged P (batches.map fun b => F b s)) := by
  match batches with
  | [rows] =>
    have hone : (layout.aggregates.mapM fun s => s.merged P ([rows].map fun b => F b s)) =
        .ok (layout.aggregates.map (F rows)) := mapM_eq_ok fun s _ => rfl
    rw [hone]
    rfl
  | rows :: rows' :: rest =>
    exact mergeUngroupedAggregate_flatten h hF (by simp)

theorem outputRow_flatten (hG : ∀ s ∈ layout.aggregates, (G s).length = s.kind.mergeKinds.length) :
    layout.outputRow P (layout.aggregates.map G).flatten =
      layout.aggregates.mapM fun s => s.finish P (G s) := by
  unfold AggregateLayout.outputRow
  split
  next havg =>
    rw [finish_of_no_avg (by rw [← h.hasAvg_eq, havg]) hG]
  · exact mapM_congr fun s hs => output_flatten h.placed hG hs

theorem stages_of_forall (hbatches : batches ≠ [])
    (hF : ∀ b ∈ batches, ∀ s ∈ layout.aggregates, s.localColumns P schema b = .ok (F b s))
    (hG : ∀ s ∈ layout.aggregates, s.merged P (batches.map fun b => F b s) = .ok (G s)) :
    ∃ input merged, batches.mapM (fun b => layout.localRow P schema b) = .ok input ∧
      layout.mergedRow P input = .ok merged ∧
      layout.outputRow P merged =
        layout.aggregates.mapM fun spec => spec.result P schema batches := by
  have hlenF (b) (hb : b ∈ batches) (s) (hs : s ∈ layout.aggregates) :=
    length_localColumns (hF b hb s hs)
  have hlenG (s) (hs : s ∈ layout.aggregates) : (G s).length = s.kind.mergeKinds.length := by
    refine length_merged (fun part hpart => ?_) (hG s hs)
    obtain ⟨b, hb, rfl⟩ := mem_map.1 hpart
    exact hlenF b hb s hs
  have hinput : batches.mapM (fun b => layout.localRow P schema b) = .ok _ :=
    mapM_eq_ok fun b hb => localRow_eq_ok_iff.2 ⟨_, mapM_eq_ok (hF b hb), rfl⟩
  refine ⟨_, (layout.aggregates.map G).flatten, hinput, ?_, ?_⟩
  · rw [mergedRow_flatten h hbatches hlenF, mapM_eq_ok hG]
    rfl
  · rw [outputRow_flatten h hlenG]
    refine mapM_congr fun s hs => ?_
    rw [AggregateSpec.result, mapM_eq_ok fun b hb => hF b hb s hs]
    show _ = (s.merged P _ >>= s.finish P)
    rw [hG s hs]
    rfl

/-- The partial and the merged columns of every aggregate, if the rows get through. -/
theorem forall_of_stages (hbatches : batches ≠ []) {input : List (List (Scalar V))}
    {merged : List (Scalar V)}
    (hinput : batches.mapM (fun b => layout.localRow P schema b) = .ok input)
    (hmerged : layout.mergedRow P input = .ok merged) :
    ∃ (F : List (Row V) → AggregateSpec → List (Scalar V)) (G : AggregateSpec → List (Scalar V)),
      (∀ b ∈ batches, ∀ s ∈ layout.aggregates, s.localColumns P schema b = .ok (F b s)) ∧
      ∀ s ∈ layout.aggregates, s.merged P (batches.map fun b => F b s) = .ok (G s) := by
  have hF (b) (hb : b ∈ batches) (s) (hs : s ∈ layout.aggregates) :
      s.localColumns P schema b = .ok (valueOf (s.localColumns P schema b)) := by
    obtain ⟨row, hrow⟩ := exists_mapM_eq_ok_iff.1 ⟨input, hinput⟩ b hb
    obtain ⟨blocks, hblocks, -⟩ := localRow_eq_ok_iff.1 hrow
    exact eq_ok_valueOf (exists_mapM_eq_ok_iff.1 ⟨blocks, hblocks⟩ s hs)
  have hrows : batches.mapM (fun b => layout.localRow P schema b) = .ok _ :=
    mapM_eq_ok fun b hb => localRow_eq_ok_iff.2 ⟨_, mapM_eq_ok (hF b hb), rfl⟩
  obtain rfl : _ = input := Except.ok.inj (hrows.symm.trans hinput)
  rw [mergedRow_flatten h hbatches fun b hb s hs => length_localColumns (hF b hb s hs)] at hmerged
  refine ⟨_, fun s => valueOf (s.merged P _), hF, fun s hs => eq_ok_valueOf ?_⟩
  cases hm : layout.aggregates.mapM fun s =>
      s.merged P (batches.map fun b => valueOf (s.localColumns P schema b)) with
  | error e =>
    rw [hm] at hmerged
    cases hmerged
  | ok ms => exact exists_mapM_eq_ok_iff.1 ⟨ms, hm⟩ s hs

end

/-- **Each aggregate by itself.** The operators return exactly if they do for every aggregate, and
then with the results of the aggregates. -/
theorem ungroupedAggregate_eq_ok_iff (haggs : aggregates ≠ []) (hbatches : batches ≠ [])
    {out : List (List (Output V))} :
    ungroupedAggregate P aggregates schema batches = .ok out ↔
      ∃ layout outs, buildAggregateLayout aggregates = .ok layout ∧
        layout.aggregates.mapM (fun spec => spec.result P schema batches) = .ok outs ∧
        [outs] = out := by
  have hempty : aggregates.isEmpty = false := by simpa using haggs
  unfold ungroupedAggregate ungroupedAggregateExecute ungroupedAggregateMergeExecute
  simp only [hempty, Bool.false_eq_true, if_false, Bool.false_or, bind_eq_ok_iff]
  have hinput_ne {layout : AggregateLayout} {input : List (List (Scalar V))}
      (h : batches.mapM (fun b => layout.localRow P schema b) = .ok input) :
      ¬input.isEmpty = true := by
    rw [List.isEmpty_iff]
    rintro rfl
    exact hbatches (length_eq_zero_iff.1 (mapM_eq_ok_iff.1 h).length_eq)
  constructor
  · rintro ⟨input, ⟨layout, hbuild, hinput⟩, hmerge⟩
    rw [if_neg (hinput_ne hinput)] at hmerge
    obtain ⟨layout', hbuild', hmerge⟩ := bind_eq_ok_iff.1 hmerge
    obtain rfl := Except.ok.inj (hbuild.symm.trans hbuild')
    obtain ⟨merged, hmerged, hmerge⟩ := bind_eq_ok_iff.1 hmerge
    obtain ⟨outs, houts, ⟨⟩⟩ := bind_eq_ok_iff.1 hmerge
    have hlaid := laid_of_buildAggregateLayout hbuild
    -- Rows that get through are made of parts that do, and these give the same rows again.
    obtain ⟨F, G, hF, hG⟩ := forall_of_stages hlaid hbatches hinput hmerged
    obtain ⟨input', merged', hinput', hmerged', hrow⟩ := stages_of_forall hlaid hbatches hF hG
    obtain rfl := Except.ok.inj (hinput.symm.trans hinput')
    obtain rfl := Except.ok.inj (hmerged.symm.trans hmerged')
    exact ⟨layout, outs, hbuild, hrow ▸ houts, rfl⟩
  · rintro ⟨layout, outs, hbuild, houts, rfl⟩
    have hlaid := laid_of_buildAggregateLayout hbuild
    have hstages (s) (hs : s ∈ layout.aggregates) :
        ∃ parts merged, batches.mapM (fun b => s.localColumns P schema b) = .ok parts ∧
          s.merged P parts = .ok merged := by
      obtain ⟨o, ho⟩ := exists_mapM_eq_ok_iff.1 ⟨outs, houts⟩ s hs
      obtain ⟨parts, hparts, ho⟩ := bind_eq_ok_iff.1 ho
      obtain ⟨merged, hmerged, -⟩ := bind_eq_ok_iff.1 ho
      exact ⟨parts, merged, hparts, hmerged⟩
    have hF (b) (hb : b ∈ batches) (s) (hs : s ∈ layout.aggregates) :
        s.localColumns P schema b = .ok (valueOf (s.localColumns P schema b)) := by
      obtain ⟨parts, -, hparts, -⟩ := hstages s hs
      exact eq_ok_valueOf (exists_mapM_eq_ok_iff.1 ⟨parts, hparts⟩ b hb)
    have hG (s) (hs : s ∈ layout.aggregates) : ∃ merged,
        s.merged P (batches.map fun b => valueOf (s.localColumns P schema b)) = .ok merged := by
      obtain ⟨parts, merged, hparts, hmerged⟩ := hstages s hs
      rw [mapM_eq_ok fun b hb => hF b hb s hs] at hparts
      exact ⟨merged, Except.ok.inj hparts ▸ hmerged⟩
    obtain ⟨input, merged, hinput, hmerged, hrow⟩ :=
      stages_of_forall hlaid hbatches hF fun s hs => eq_ok_valueOf (hG s hs)
    refine ⟨input, ⟨layout, hbuild, hinput⟩, ?_⟩
    rw [if_neg (hinput_ne hinput)]
    refine bind_eq_ok_iff.2 ⟨layout, hbuild, bind_eq_ok_iff.2 ⟨merged, hmerged, ?_⟩⟩
    exact bind_eq_ok_iff.2 ⟨outs, hrow.trans houts, rfl⟩

end Rows

end Sirius.Aggregate
