import Sirius.Aggregate.PartialResults

/-!
# The aggregation of the whole

Cut into batches, aggregated, partitioned and merged, a table gives every group once, with the
aggregates of the whole group (`exists_mergeTasks`). Two things are lost on the way. One is a DISTINCT: the
conversion reads the flag for COUNT only, and an AVG or SUM over distinct values comes out as one over
all values. The other is what does not fit into 32 bits when DECIMAL32 values of a group in a batch are
added up.

`computesWhole_iff` says for which aggregates the result is right whatever the table is, and for which tables
it is right anyway.
-/

namespace Sirius.Aggregate

open Lib List
open Sirius.Expression (CudfTypeId)
open Sirius.Sort (Row gather)

variable {V : Type} [LinearOrder V] (bits : V → BitVec 64) (types : Nat → CudfTypeId)

/-! ## The final columns -/

namespace CudfAggregateDefinitions

def cells (defs : CudfAggregateDefinitions) (rows : List (Row V)) : List (Cell V) :=
  defs.cudfAggregates.map fun e => e.cell bits types rows

def finish (defs : CudfAggregateDefinitions) (cells : List (Cell V)) : List (Cell V) :=
  defs.aggregateSlots.map fun slot => slot.output cells

def Plain (defs : CudfAggregateDefinitions) : Prop :=
  defs.aggregateSlots = (List.range defs.cudfAggregates.length).map fun i => ⟨false, false, i⟩

end CudfAggregateDefinitions

variable {defs : CudfAggregateDefinitions} {groups : List Nat} {nodes : List AggregateNode}
  {es : List CudfAggregate} {expressions : List (Option AggregateNode)}

theorem AggregateNode.length_of_plain {aggr : AggregateNode} (h : aggr.cudfAggregates = .ok es)
    (havg : aggr.isAvg = false) (hcd : aggr.isCountDistinct = false) : es.length = 1 := by
  rw [cudfAggregates, if_neg (by simp [havg]), if_neg (by simp [hcd])] at h
  obtain ⟨function, arguments, distinct⟩ := aggr
  rcases arguments with _ | ⟨c | cs, _ | ⟨b, rest⟩⟩
  · cases function <;> cases h
    rfl
  · cases function <;> cases h <;> rfl
  · cases function <;> cases h
  · cases function <;> cases h
  · cases function <;> cases h

/-- Without AVG and COUNT(DISTINCT ..) the flat list is the list of the aggregates. -/
theorem plain_of_convert (h : convertDuckdbAggregatesToCudf groups expressions = .ok defs)
    (hnodes : ∀ aggr, some aggr ∈ expressions → aggr.isAvg = false ∧ aggr.isCountDistinct = false) :
    defs.Plain := by
  refine foldlM_rec (P := fun _ defs => defs.Plain) h rfl ?_
  intro _ _ _ _ hmem hplain hstep
  obtain ⟨aggr, es, rfl, hes, rfl⟩ := convertAggregate_eq_ok_iff.1 hstep
  obtain ⟨havg, hcd⟩ := hnodes aggr hmem
  have hlen := AggregateNode.length_of_plain hes havg hcd
  unfold CudfAggregateDefinitions.Plain at hplain ⊢
  simp [push, hplain, havg, hcd, hlen, range_succ]

omit [LinearOrder V] in
/-- The shortcut for plain aggregates leaves out nothing. -/
theorem finish_eq_self (h : convertDuckdbAggregatesToCudf groups (nodes.map some) = .ok defs)
    (hflags : (!defs.hasAvg && !defs.hasCountDistinct) = true) {cells : List (Cell V)}
    (hlen : cells.length = defs.cudfAggregates.length) : defs.finish cells = cells := by
  have hnodes : ∀ aggr, some aggr ∈ nodes.map some →
      aggr.isAvg = false ∧ aggr.isCountDistinct = false := by
    intro aggr ha
    obtain ⟨slot, hslot, aggr', _, hnode, -, havg, hcd, -⟩ :=
      exists_of_mem_forall₂ (convert_reads h).2 ha
    cases hnode
    simp only [CudfAggregateDefinitions.hasAvg, CudfAggregateDefinitions.hasCountDistinct,
      Bool.and_eq_true, Bool.not_eq_true', any_eq_false] at hflags
    exact ⟨havg ▸ Bool.eq_false_of_not_eq_true (hflags.1 slot hslot),
      hcd ▸ Bool.eq_false_of_not_eq_true (hflags.2 slot hslot)⟩
  have hplain : defs.Plain := plain_of_convert h hnodes
  unfold CudfAggregateDefinitions.Plain at hplain
  rw [CudfAggregateDefinitions.finish, hplain, ← hlen, map_map]
  apply ext_getElem (by simp)
  intro i _ hi
  simp [AggregateSlot.output, getD_eq_getElem?_getD, hi]

/-! ## The aggregates of SQL -/

namespace AggregateNode

/-- What an aggregate looks at in a row: its column, or a struct of columns. COUNT(*) looks at
nothing. -/
def element (aggr : AggregateNode) (row : Row V) : Element V :=
  match aggr.arguments with
  | [] => some []
  | .reference c :: _ => valueElement (row.getD c none)
  | .structPack cs :: _ => some (gather cs row)

def elements (aggr : AggregateNode) (rows : List (Row V)) : List (Element V) :=
  if aggr.distinct then (rows.map aggr.element).dedup else rows.map aggr.element

/-- The value of an aggregate on a group, with a way to add up numbers. AVG is given by its sum and
count. -/
def aggregate (sum : List (Option (BitVec 64)) → Option (BitVec 64)) (aggr : AggregateNode)
    (rows : List (Row V)) : Cell V :=
  let es := aggr.elements rows
  match aggr.function with
  | .sum | .sumNoOverflow => .number (sum (es.map fun e => e.value.map bits))
  | .count => .number (some (countValid es))
  | .countStar => .number (some (.ofNat 64 es.length))
  | .min => .value (minOf (es.map Element.value))
  | .max => .value (maxOf (es.map Element.value))
  | .avg => .quotient (sum (es.map fun e => e.value.map bits)) (some (countValid es))
  | .first => .value none

/-- The aggregate of SQL, with sums modulo 2^64. -/
def sqlAggregate (aggr : AggregateNode) (rows : List (Row V)) : Cell V := aggr.aggregate bits sumOf rows

def columnType (aggr : AggregateNode) : CudfTypeId :=
  match aggr.arguments with
  | .reference c :: _ => types c
  | _ => .struct

/-- The aggregate that is computed: DISTINCT is kept for COUNT only. -/
def computed (aggr : AggregateNode) : AggregateNode := { aggr with distinct := aggr.isCountDistinct }

/-- As the conversion asserts: AVG and COUNT(DISTINCT ..) have one argument, and a struct has a column. -/
structure WellBound (aggr : AggregateNode) : Prop where
  bound : aggr.Bound
  structs : .structPack [] ∉ aggr.arguments

instance (aggr : AggregateNode) : Decidable aggr.Bound := inferInstanceAs (Decidable (_ → _))

instance (aggr : AggregateNode) : Decidable aggr.WellBound :=
  decidable_of_iff (aggr.Bound ∧ .structPack [] ∉ aggr.arguments)
    ⟨fun h => ⟨h.1, h.2⟩, fun h => ⟨h.bound, h.structs⟩⟩

variable {aggr : AggregateNode} {es : List CudfAggregate}

theorem WellBound.valid (h : aggr.WellBound) (hes : aggr.cudfAggregates = .ok es) :
    ∀ e ∈ es, e.Valid := by
  obtain ⟨function, arguments, distinct⟩ := aggr
  match arguments with
  | [] | [.reference c] | .reference c :: _ :: _ =>
    cases function <;> cases distinct <;> cases hes <;> simp [CudfAggregate.Valid]
  | [.structPack cs] | .structPack cs :: _ :: _ =>
    have hcs : cs ≠ [] := by
      rintro rfl
      exact h.structs (by simp)
    cases function <;> cases distinct <;> cases hes
    all_goals simp [CudfAggregate.Valid, hcs]

/-- COUNT(DISTINCT ..) is the size of the set. -/
theorem card_setOf (es : List (Element V)) :
    BitVec.ofNat 64 (setOf es).card = countValid es.dedup := by
  have hset : setOf es = es.dedup.reduceOption.toFinset := by
    ext row
    simp [setOf, reduceOption_mem_iff]
  have hnodup : es.dedup.reduceOption.Nodup :=
    es.nodup_dedup.filterMap fun a b c ha hb => ha.trans hb.symm
  rw [hset, toFinset_card_of_nodup hnodup, reduceOption_length_eq,
    ← countP_eq_length_filter]
  rfl

theorem getD_cells {e : CudfAggregate} {j : Nat} (he : es[j]? = some e)
    (before after : List CudfAggregate) (rows : List (Row V)) :
    ((before ++ es ++ after).map fun e => e.cell bits types rows).getD (before.length + j) default =
      e.cell bits types rows := by
  rw [List.getD_eq_getElem?_getD, List.getElem?_map, List.append_assoc,
    List.getElem?_append_right (Nat.le_add_right _ _), Nat.add_sub_cancel_left,
    List.getElem?_append_left (List.getElem?_eq_some_iff.1 he).1, he]
  rfl

/-- **Slots.** The final column of a slot is the aggregate of its node, but for DISTINCT. -/
theorem output_eq (h : aggr.WellBound) (hes : aggr.cudfAggregates = .ok es)
    (before after : List CudfAggregate) (rows : List (Row V)) :
    AggregateSlot.output ⟨aggr.isAvg, aggr.isCountDistinct, before.length⟩
      ((before ++ es ++ after).map fun e => e.cell bits types rows) =
      aggr.computed.aggregate bits (sumIn (aggr.columnType types)) rows := by
  have hfirst {e : CudfAggregate} (he : es[0]? = some e) := getD_cells bits types he before after rows
  have hsecond {e : CudfAggregate} (he : es[1]? = some e) := getD_cells bits types he before after rows
  generalize (before ++ es ++ after).map (fun e => e.cell bits types rows) = cells at hfirst hsecond ⊢
  have hdistinct (hslot : (cells.getD before.length default).asList = setOf (rows.map aggr.element)) :
      Cell.number (V := V) (some (.ofNat 64 (cells.getD before.length default).asList.card)) =
        .number (some (countValid (rows.map aggr.element).dedup)) := by
    rw [hslot, card_setOf]
  obtain ⟨function, arguments, distinct⟩ := aggr
  match arguments with
  | [] =>
    rw [cudfAggregates_eq_plain h.bound (by simp)] at hes
    cases function <;> cases hes
    have hcount (sum) : CudfAggregate.cell bits types ⟨.countAll, 0, []⟩ rows =
        aggregate bits sum ⟨.countStar, [], false⟩ rows := by
      simp [CudfAggregate.cell, CudfAggregate.column, localAggregation, aggregate, elements]
    cases distinct <;> exact (hfirst rfl).trans (hcount _)
  | [.reference c] =>
    cases function with
    | avg =>
      have hpair {a b a' b' : Cell V} (ha : a = a') (hb : b = b') :
          Cell.quotient (V := V) a.asNumber b.asNumber = .quotient a'.asNumber b'.asNumber :=
        by rw [ha, hb]
      cases distinct <;> cases hes <;> exact hpair (hfirst rfl) (hsecond rfl)
    | count =>
      cases distinct with
      | false =>
        cases hes
        exact hfirst rfl
      | true =>
        cases hes
        exact hdistinct (congrArg Cell.asList (hfirst rfl))
    | first => cases distinct <;> cases hes
    | _ =>
      cases distinct <;> cases hes <;> exact hfirst rfl
  | [.structPack cs] =>
    have hcs : cs.isEmpty = false := by
      rw [isEmpty_eq_false_iff]
      rintro rfl
      exact h.structs (by simp)
    cases function <;> cases distinct
    all_goals cases hes
    refine hdistinct ((congrArg Cell.asList (hfirst rfl)).trans ?_)
    rw [CudfAggregate.cell, CudfAggregate.column, if_neg (by simp [hcs])]
    rfl
  | _ :: _ :: _ =>
    rw [cudfAggregates_eq_plain h.bound (by simp)] at hes
    cases function <;> cases hes

end AggregateNode

/-! ## The whole pipeline -/

section Pipeline

variable (h : convertDuckdbAggregatesToCudf groups (nodes.map some) = .ok defs)
  (hwell : ∀ aggr ∈ nodes, aggr.WellBound)

include h hwell

theorem valid_of_wellBound : ∀ e ∈ defs.cudfAggregates, e.Valid := by
  refine foldlM_rec (P := fun _ defs => ∀ e ∈ defs.cudfAggregates, e.Valid) h nofun ?_
  intro _ _ _ _ hmem hvalid hstep
  obtain ⟨aggr, es, rfl, hes, rfl⟩ := convertAggregate_eq_ok_iff.1 hstep
  exact forall_mem_append.2 ⟨hvalid, (hwell aggr (by simpa using hmem)).valid hes⟩

theorem finish_cells (rows : List (Row V)) :
    defs.finish (defs.cells bits types rows) =
      nodes.map fun aggr => aggr.computed.aggregate bits (sumIn (aggr.columnType types)) rows := by
  have hreads := (convert_reads h).2
  have houtput {slot : AggregateSlot} {aggr : AggregateNode} (haggr : aggr ∈ nodes)
      (hslot : slot.Reads defs.cudfAggregates (some aggr)) :
      slot.output (defs.cells bits types rows) =
        aggr.computed.aggregate bits (sumIn (aggr.columnType types)) rows := by
    obtain ⟨isAvg, isCountDistinct, cudfIdx⟩ := slot
    obtain ⟨_, es, ⟨⟩, hes, rfl, rfl, before, after, hflat, rfl⟩ := hslot
    rw [CudfAggregateDefinitions.cells, hflat]
    exact AggregateNode.output_eq bits types (hwell aggr haggr) hes before after rows
  unfold CudfAggregateDefinitions.finish
  generalize defs.aggregateSlots = slots at hreads
  clear h hwell
  induction nodes generalizing slots with
  | nil => cases hreads with | nil => rfl
  | cons aggr nodes ih =>
    cases hreads with
    | cons hslot hreads =>
      rw [map_cons, map_cons, houtput (by simp) hslot,
        ih (fun haggr => houtput (.tail _ haggr)) _ hreads]

omit hwell in
/-- The shortcut and the projection both give the final columns. -/
theorem grouped_finish {key : Row V → Row V} {rows : List (Row V)} {out : List (ResultRow V)}
    (hout : Grouped key (defs.cells bits types) rows out) :
    Grouped key (fun rows => defs.finish (defs.cells bits types rows)) rows
      (if !defs.hasAvg && !defs.hasCountDistinct then out else defs.project out) := by
  split
  next hflags =>
    exact hout.congr fun k _ => (finish_eq_self h hflags (length_map _)).symm
  · exact hout.map

omit hwell in
/-- **One partition.** The merge task gives the groups of the rows behind its batches. It has nothing to merge
if there is only one. -/
theorem exists_mergeTask (d : DistinctKeys (Row V)) {key : Row V → Row V}
    {ls : List (List (Row V))} {arrived : List (List (ResultRow V))}
    (harrived : List.Forall₂ (Grouped key (defs.cells bits types)) ls arrived)
    (htypes : ls.length < 2 ∨ ∀ c, types c ≠ .decimal32) :
    ∃ out, mergeTask d defs arrived = .ok out ∧
      Grouped key (fun rows => defs.finish (defs.cells bits types rows)) ls.flatten out := by
  cases harrived with
  | nil => exact ⟨[], rfl, nodup_nil, by simp⟩
  | cons hout htail =>
    cases htail with
    | nil =>
      rw [flatten_singleton]
      refine ⟨_, ?_, grouped_finish bits types h hout⟩
      simp only [mergeTask, mergeExecute, isEmpty_cons]
      rw [if_neg (by simp)]
      split <;> rfl
    | cons hout' htail =>
      have hwide : ∀ c, types c ≠ .decimal32 := htypes.resolve_left (by simp)
      have hmerged := grouped_mergeBy d (decomposes_cells bits defs.cudfAggregates hwide)
        (.cons hout (.cons hout' htail))
      refine ⟨_, ?_, grouped_finish bits types h hmerged⟩
      simp only [mergeTask, mergeExecute, mergeGroupedAggregate, isEmpty_cons, length_cons]
      rw [if_neg (by simp), if_neg (by omega)]
      show (if _ then Except.ok _ else Except.ok _) = _
      split <;> rfl

omit hwell in
/-- **All partitions.** Whatever the hash, the number of partitions and the order in which batches
arrive are, the partitions together hold every group once. -/
theorem exists_mergeTasks (d : DistinctKeys (Row V)) (hash : Row V → Nat) (numPartitions : Nat)
    {batches : List (List (Row V))} {locals : List (List (ResultRow V))}
    (hlocals : List.Forall₂ (Grouped (gather groups) (defs.cells bits types)) batches locals)
    (htypes : batches.length < 2 ∨ ∀ c, types c ≠ .decimal32)
    {arrival : Nat → List (List (ResultRow V))}
    (harrival : ∀ i < partitionCount defs numPartitions,
      (arrival i).Perm (locals.map (hashPartition defs hash numPartitions i))) :
    ∃ outs, (range (partitionCount defs numPartitions)).mapM
        (fun i => mergeTask d defs (arrival i)) = .ok outs ∧
      Grouped (gather groups) (fun rows => defs.finish (defs.cells bits types rows)) batches.flatten
        outs.flatten := by
  have hpartition (i) (hi : i < partitionCount defs numPartitions) :
      ∃ out, mergeTask d defs (arrival i) = .ok out ∧
        Grouped (gather groups) (fun rows => defs.finish (defs.cells bits types rows))
          (batches.flatten.filter fun row =>
            partitionOf defs hash numPartitions (gather groups row) = i) out := by
    have hpieces : List.Forall₂ (Grouped (gather groups) (defs.cells bits types))
        (batches.map fun batch => batch.filter fun row =>
          partitionOf defs hash numPartitions (gather groups row) = i)
        (locals.map (hashPartition defs hash numPartitions i)) := by
      rw [forall₂_map_left_iff, forall₂_map_right_iff]
      exact hlocals.imp fun _ _ hlocal =>
        hlocal.filter fun key => partitionOf defs hash numPartitions key = i
    obtain ⟨ls, harrived, hperm⟩ := perm_comp_forall₂ (harrival i hi) hpieces.flip
    have hlength : ls.length = batches.length := by rw [hperm.length_eq, length_map]
    obtain ⟨out, hout, hgrouped⟩ := exists_mergeTask bits types h d harrived.flip (hlength ▸ htypes)
    refine ⟨out, hout, hgrouped.perm ?_ fun hp => ?_⟩
    · rw [filter_flatten]
      exact hperm.flatten
    · rw [CudfAggregateDefinitions.cells, cells_perm bits types _ hp]
      rfl
  choose! outs houts hgrouped using hpartition
  refine ⟨_, mapM_eq_ok fun i hi => houts i (mem_range.1 hi), ?_⟩
  rw [← flatMap_def]
  have hpos : 0 < partitionCount defs numPartitions := by
    unfold partitionCount
    split <;> omega
  have hpart (key : Row V) : partitionOf defs hash numPartitions key <
      partitionCount defs numPartitions := Nat.mod_lt _ hpos
  exact Grouped.flatMap hpart hgrouped

end Pipeline

/-! ## DISTINCT -/

/-- DISTINCT changes nothing, or is taken into account. -/
def AggregateNode.Honoured (aggr : AggregateNode) : Prop :=
  aggr.distinct = true → aggr.function = .count ∨ aggr.function = .min ∨ aggr.function = .max

instance (aggr : AggregateNode) : Decidable aggr.Honoured := inferInstanceAs (Decidable (_ → _))

namespace AggregateNode

variable {aggr : AggregateNode}

/-- A fold of an idempotent operation does not see duplicates. -/
theorem foldr_map_dedup {op : Option V → Option V → Option V} [Std.Associative op]
    [Std.Commutative op] [Std.IdempotentOp op] (es : List (Element V)) :
    (es.dedup.map Element.value).foldr op none = (es.map Element.value).foldr op none :=
  foldr_op_congr fun v => by simp

theorem computed_eq (h : aggr.Honoured) (rows : List (Row V)) :
    aggr.computed.sqlAggregate bits rows = aggr.sqlAggregate bits rows := by
  obtain ⟨function, arguments, distinct⟩ := aggr
  cases distinct with
  | false => rfl
  | true =>
    rcases h rfl with hf | hf | hf <;> obtain rfl : function = _ := hf
    · rfl
    · exact congrArg Cell.value (foldr_map_dedup _).symm
    · exact congrArg Cell.value (foldr_map_dedup _).symm

omit [LinearOrder V] in
theorem value_valueElement (v : Option V) : (valueElement v).value = v := by cases v <;> rfl

theorem sumOf_pair_ne {b : BitVec 64} (hb : b ≠ 0) : sumOf [some b, some b] ≠ sumOf [some b] := by
  intro h
  have hadd : b + b = b := Option.some.inj h
  exact hb (left_eq_add.1 hadd.symm)

theorem exists_bound (aggr : AggregateNode) : ∃ n, ∀ c, .reference c ∈ aggr.arguments → c < n := by
  induction aggr.arguments with
  | nil => exact ⟨0, by simp⟩
  | cons argument arguments ih =>
    obtain ⟨n, hn⟩ := ih
    cases argument with
    | structPack cs => exact ⟨n, fun c hc => hn c (by simpa using hc)⟩
    | reference c' =>
      refine ⟨max n (c' + 1), fun c hc => ?_⟩
      rcases mem_cons.1 hc with heq | hc
      · obtain rfl : c = c' := Argument.reference.inj heq
        omega
      · exact lt_of_lt_of_le (hn c hc) (le_max_left ..)

omit [LinearOrder V] in
/-- The first argument is a column, unless the aggregate is COUNT(*). -/
theorem element_eq (hes : aggr.cudfAggregates = .ok es) (hcount : aggr.function ≠ .count) {v : V} {row : Row V}
    (hrow : ∀ c, .reference c ∈ aggr.arguments → row.getD c none = some v) :
    aggr.function = .countStar ∨ aggr.element row = valueElement (some v) := by
  obtain ⟨function, arguments, distinct⟩ := aggr
  match arguments with
  | [] => cases function <;> cases distinct <;> first | exact .inl rfl | cases hes
  | .reference c :: _ => exact .inr (congrArg valueElement (hrow c (by simp)))
  | [.structPack cs]
  | .structPack cs :: _ :: _ =>
    cases function <;> cases distinct <;> first | exact absurd rfl hcount | cases hes

theorem computed_ne (hes : aggr.cudfAggregates = .ok es) (h : ¬aggr.Honoured) {v : V}
    (hv : bits v ≠ 0) {row : Row V}
    (hrow : ∀ c, .reference c ∈ aggr.arguments → row.getD c none = some v) :
    aggr.computed.sqlAggregate bits [row, row] ≠ aggr.sqlAggregate bits [row, row] := by
  obtain ⟨hdistinct, hcount, hmin, hmax⟩ : aggr.distinct = true ∧ aggr.function ≠ .count ∧
      aggr.function ≠ .min ∧ aggr.function ≠ .max := by simpa [Honoured, not_or] using h
  have hall : aggr.computed.elements [row, row] = [aggr.element row, aggr.element row] := by
    simp [elements, computed, isCountDistinct, hcount]
    rfl
  have hone : aggr.elements [row, row] = [aggr.element row] := by simp [elements, hdistinct]
  have helement := element_eq hes hcount hrow
  unfold sqlAggregate aggregate
  rw [hall, hone]
  rcases helement with hfunction | helement
  · simp [computed, hfunction]
  · have hsum := sumOf_pair_ne hv
    rw [helement]
    cases hfunction : aggr.function with
    | sum | sumNoOverflow => simpa [computed, hfunction, value_valueElement] using hsum
    | avg => simpa [computed, hfunction, value_valueElement] using fun heq => absurd heq hsum
    | countStar => simp [computed, hfunction]
    | count => exact absurd hfunction hcount
    | min => exact absurd hfunction hmin
    | max => exact absurd hfunction hmax
    | first =>
      obtain ⟨function, arguments, distinct⟩ := aggr
      obtain rfl : function = .first := hfunction
      cases distinct <;> cases hes

end AggregateNode

/-! ## DECIMAL32

A sum of a column is right if it fits into 32 bits, or if the column is no DECIMAL32. -/

namespace AggregateNode

/-- The column whose values the aggregate adds up. -/
def summed (aggr : AggregateNode) : Option Nat :=
  match aggr.function, aggr.arguments with
  | .sum, .reference c :: _ | .sumNoOverflow, .reference c :: _ | .avg, .reference c :: _ => some c
  | _, _ => none

/-- The aggregate adds up no DECIMAL32 values. -/
def Wide (aggr : AggregateNode) : Prop := ∀ c ∈ aggr.summed, types c ≠ .decimal32

instance (aggr : AggregateNode) : Decidable (aggr.Wide types) :=
  match h : aggr.summed with
  | none => .isTrue fun c hc => by rw [h] at hc; cases hc
  | some c => decidable_of_iff (types c ≠ .decimal32)
      ⟨fun hne c' hc => by rw [h] at hc; cases hc; exact hne, fun hwide => hwide c h⟩

/-- The DECIMAL32 values of a group in a batch have a sum that fits into 32 bits. -/
def SumsFit (groups : List Nat) (batches : List (List (Row V))) (aggr : AggregateNode) : Prop :=
  ∀ c ∈ aggr.summed, types c = .decimal32 → ∀ batch ∈ batches, ∀ row ∈ batch,
    ∀ n ∈ sumOf ((groupOf (gather groups) (gather groups row) batch).map fun r => (r.getD c none).map bits),
      -2 ^ 31 ≤ n.toInt ∧ n.toInt < 2 ^ 31

variable {aggr : AggregateNode}

theorem summed_of_sum (hes : aggr.cudfAggregates = .ok es) :
    ∀ e ∈ es, e.kind = .sum → aggr.summed = some e.idx.toNat ∧ e.structColIndices = [] := by
  obtain ⟨function, arguments, distinct⟩ := aggr
  match arguments with
  | [] | [.reference c] | .reference c :: _ :: _ | [.structPack cs] | .structPack cs :: _ :: _ =>
    cases function <;> cases distinct <;> cases hes <;> simp [summed]

end AggregateNode

section Converted

variable (h : convertDuckdbAggregatesToCudf groups (nodes.map some) = .ok defs)

include h

theorem exists_summed : ∀ e ∈ defs.cudfAggregates, e.kind = .sum →
    ∃ aggr ∈ nodes, aggr.summed = some e.idx.toNat ∧ e.structColIndices = [] := by
  refine foldlM_rec (P := fun _ defs => ∀ e ∈ defs.cudfAggregates, e.kind = .sum →
    ∃ aggr ∈ nodes, aggr.summed = some e.idx.toNat ∧ e.structColIndices = []) h nofun ?_
  intro _ _ _ _ hmem hsummed hstep
  obtain ⟨aggr, es, rfl, hes, rfl⟩ := convertAggregate_eq_ok_iff.1 hstep
  exact forall_mem_append.2 ⟨hsummed, fun e he hkind =>
    ⟨aggr, by simpa using hmem, AggregateNode.summed_of_sum hes e he hkind⟩⟩

/-- The cells of a group in a batch, without the cut to 32 bits. -/
theorem cells_of_sumsFit {batches : List (List (Row V))}
    (hfit : ∀ aggr ∈ nodes, aggr.SumsFit bits types groups batches)
    {batch : List (Row V)} (hbatch : batch ∈ batches) {k : Row V} (hk : k ∈ batch.map (gather groups)) :
    defs.cells bits types (groupOf (gather groups) k batch) =
      defs.cells bits (fun _ => .int64) (groupOf (gather groups) k batch) := by
  obtain ⟨row, hrow, rfl⟩ := mem_map.1 hk
  refine map_congr_left fun e he => ?_
  by_cases hkind : e.kind = .sum
  · obtain ⟨aggr, haggr, hsummed, hstruct⟩ := exists_summed h e he hkind
    have hempty : e.structColIndices.isEmpty := isEmpty_iff.2 hstruct
    unfold CudfAggregate.cell CudfAggregate.type CudfAggregate.column
    simp only [if_pos hempty, hkind, localAggregation, map_map, Function.comp_def,
      AggregateNode.value_valueElement]
    by_cases htype : types e.idx.toNat = .decimal32
    · rw [htype, sumIn_decimal32, sumIn, if_neg (by decide)]
      have hn := hfit aggr haggr _ hsummed htype batch hbatch row hrow
      refine congrArg Cell.number ?_
      generalize sumOf _ = n at hn ⊢
      cases n with
      | none => rfl
      | some n => exact congrArg some (narrow_eq_self (hn n rfl))
    · rw [sumIn, if_neg htype, sumIn, if_neg (by decide)]
  · unfold CudfAggregate.cell
    cases hkind' : e.kind <;> first | exact absurd hkind' hkind | rfl

theorem exists_locals (hwell : ∀ aggr ∈ nodes, aggr.WellBound) (d : DistinctKeys (Row V))
    (batches : List (List (Row V))) :
    ∃ locals, batches.mapM (localGroupedAggregate bits types d defs) = .ok locals ∧
      List.Forall₂ (Grouped (gather groups) (defs.cells bits types)) batches locals := by
  refine ⟨_, mapM_eq_ok fun rows _ => localGroupedAggregate_eq bits types d
    (valid_of_wellBound h hwell) rows, ?_⟩
  rw [forall₂_map_right_iff]
  refine forall₂_same.2 fun rows _ => ?_
  rw [(convert_reads h).1]
  exact grouped_groupBy ..

end Converted

/-! ## The aggregation of the whole -/

/-- Grouped aggregation of some batches gives every group once, with the aggregates of the whole group: for
every hash, number of partitions and order in which the batches of a partition arrive. -/
def ComputesWhole (groups : List Nat) (nodes : List AggregateNode) (batches : List (List (Row V))) : Prop :=
  ∀ defs, convertDuckdbAggregatesToCudf groups (nodes.map some) = .ok defs →
    ∀ (d : DistinctKeys (Row V)) (hash : Row V → Nat) (numPartitions : Nat),
    ∃ locals, batches.mapM (localGroupedAggregate bits types d defs) = .ok locals ∧
      ∀ arrival : Nat → List (List (ResultRow V)),
        (∀ i < partitionCount defs numPartitions,
          (arrival i).Perm (locals.map (hashPartition defs hash numPartitions i))) →
        ∃ outs, (List.range (partitionCount defs numPartitions)).mapM
            (fun i => mergeTask d defs (arrival i)) = .ok outs ∧
          Grouped (gather groups) (fun rows => nodes.map fun aggr => aggr.sqlAggregate bits rows)
            batches.flatten outs.flatten

/-- **The tables whose aggregates are right**: DISTINCT is used with COUNT, MIN and MAX only, and the sums of
DECIMAL32 values fit. -/
theorem computesWhole_of_sumsFit (hwell : ∀ aggr ∈ nodes, aggr.WellBound) {batches : List (List (Row V))}
    (hnodes : ∀ aggr ∈ nodes, aggr.Honoured ∧ aggr.SumsFit bits types groups batches) :
    ComputesWhole bits types groups nodes batches := by
  intro defs h d hash numPartitions
  obtain ⟨locals, hlocals, hgrouped⟩ := exists_locals bits types h hwell d batches
  refine ⟨locals, hlocals, fun arrival harrival => ?_⟩
  have hwide : List.Forall₂ (Grouped (gather groups) (defs.cells bits fun _ => .int64)) batches locals := by
    rw [forall₂_iff_get] at hgrouped ⊢
    refine ⟨hgrouped.1, fun i hi hi' => (hgrouped.2 i hi hi').congr fun k hk => ?_⟩
    exact cells_of_sumsFit bits types h (fun aggr haggr => (hnodes aggr haggr).2) (get_mem _ _) hk
  obtain ⟨outs, houts, hout⟩ := exists_mergeTasks bits _ h d hash numPartitions hwide
    (.inr fun _ => by decide) harrival
  refine ⟨outs, houts, hout.congr fun k _ => ?_⟩
  rw [finish_cells bits _ h hwell]
  refine map_congr_left fun aggr haggr => ?_
  rw [← AggregateNode.computed_eq bits (hnodes aggr haggr).1]
  unfold AggregateNode.sqlAggregate
  congr 1
  funext ns
  have htype : aggr.columnType (fun _ => .int64) ≠ .decimal32 := by
    unfold AggregateNode.columnType
    split
    · exact fun h => nomatch h
    · decide
  exact if_neg htype

/-- One batch of equal rows, all of whose values are `v`. -/
theorem computed_eq_of_one_batch (hwell : ∀ aggr ∈ nodes, aggr.WellBound)
    (h : convertDuckdbAggregatesToCudf groups (nodes.map some) = .ok defs) (row : Row V) {n : Nat}
    (hn : n ≠ 0) (hwhole : ComputesWhole bits types groups nodes [replicate n row]) {aggr : AggregateNode}
    (haggr : aggr ∈ nodes) :
    aggr.computed.aggregate bits (sumIn (aggr.columnType types)) (replicate n row) =
      aggr.sqlAggregate bits (replicate n row) := by
  obtain ⟨locals, hlocals, hall⟩ := hwhole defs h (DistinctKeys.dedup _) (fun _ => 0) 1
  obtain ⟨outs, houts, hout⟩ := hall (fun i => locals.map (hashPartition defs (fun _ => 0) 1 i))
    fun _ _ => .refl _
  obtain ⟨locals', hlocals', hgrouped⟩ :=
    exists_locals bits types h hwell (DistinctKeys.dedup _) [replicate n row]
  obtain rfl : locals = locals' := Except.ok.inj (hlocals.symm.trans hlocals')
  obtain ⟨outs', houts', hout'⟩ := exists_mergeTasks bits types h (DistinctKeys.dedup _) (fun _ => 0) 1
    hgrouped (.inl Nat.one_lt_two) fun i _ => .refl (locals.map (hashPartition defs (fun _ => 0) 1 i))
  obtain rfl : outs = outs' := Except.ok.inj (houts.symm.trans houts')
  have heq := hout'.eq_of hout (k := gather groups row) (by simp [hn])
  have hgroup : groupOf (gather groups) (gather groups row) (replicate n row) = replicate n row := by
    simp [groupOf]
  rw [flatten_singleton, hgroup, finish_cells bits types h hwell, map_inj_left] at heq
  exact heq aggr haggr

section Necessary

variable {aggr : AggregateNode} {v : V} {row : Row V} (hes : aggr.cudfAggregates = .ok es)
  (hv : bits v = 999999999) (hrow : ∀ c, .reference c ∈ aggr.arguments → row.getD c none = some v)

include hes hv hrow

/-- The numbers that are added up for equal rows. -/
theorem AggregateNode.numbers_eq (hcount : aggr.function ≠ .count) (hstar : aggr.function ≠ .countStar)
    (m : Nat) :
    (aggr.computed.elements (replicate m row)).map (fun e => e.value.map bits) =
      replicate m (some 999999999) := by
  have helement : aggr.computed.element row = valueElement (some v) :=
    (element_eq hes hcount hrow).resolve_left hstar
  rw [elements, if_neg (by simp [computed, isCountDistinct, hcount]), map_replicate, map_replicate, helement,
    value_valueElement, Option.map_some, hv]

/-- Two equal rows show whether DISTINCT is honoured. -/
theorem AggregateNode.honoured_of_eq
    (heq : aggr.computed.aggregate bits (sumIn (aggr.columnType types)) [row, row] =
      aggr.sqlAggregate bits [row, row]) : aggr.Honoured := by
  by_contra hnot
  have hv0 : bits v ≠ 0 := by
    rw [hv]
    decide
  refine computed_ne bits hes hnot hv0 hrow (Eq.trans ?_ heq)
  have hcount : aggr.function ≠ .count := fun h => hnot fun _ => .inl h
  unfold sqlAggregate aggregate
  by_cases hstar : aggr.function = .countStar
  · rw [show aggr.computed.function = .countStar from hstar]
  · have hsum : sumOf (replicate 2 (some 999999999)) =
        sumIn (aggr.columnType types) (replicate 2 (some 999999999)) := by
      unfold sumIn
      split <;> decide
    have hnumbers := numbers_eq bits hes hv hrow hcount hstar 2
    simp only [show [row, row] = replicate 2 row from rfl, hnumbers, hsum]

/-- Three equal rows show whether a DECIMAL32 column is added up. -/
theorem AggregateNode.wide_of_eq (hhonoured : aggr.Honoured)
    (heq : aggr.computed.aggregate bits (sumIn (aggr.columnType types)) [row, row, row] =
      aggr.sqlAggregate bits [row, row, row]) : aggr.Wide types := by
  intro c hc htype
  have hsum : sumIn .decimal32 (replicate 3 (some 999999999)) ≠ sumOf (replicate 3 (some 999999999)) := by
    decide
  rw [← computed_eq bits hhonoured] at heq
  have hfunction : aggr.columnType types = .decimal32 ∧
      (aggr.function = .sum ∨ aggr.function = .sumNoOverflow ∨ aggr.function = .avg) := by
    obtain ⟨function, arguments, distinct⟩ := aggr
    cases function <;> rcases arguments with _ | ⟨_ | _, _⟩ <;> cases hc <;> simp [columnType, htype]
  have hnumbers := numbers_eq bits hes hv hrow (by rcases hfunction.2 with h | h | h <;> simp [h])
    (by rcases hfunction.2 with h | h | h <;> simp [h]) 3
  unfold sqlAggregate aggregate at heq
  simp only [show [row, row, row] = replicate 3 row from rfl, hnumbers, hfunction.1] at heq
  rcases hfunction.2 with h | h | h
  all_goals
    rw [show aggr.computed.function = _ from h] at heq
    simp only [Cell.number.injEq, Cell.quotient.injEq] at heq
  · exact hsum heq
  · exact hsum heq
  · exact hsum heq.1

end Necessary

end Sirius.Aggregate
