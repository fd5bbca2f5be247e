import Sirius.Aggregate.UngroupedColumns

/-!
# Cutting the input of an ungrouped aggregation

Every aggregate but FIRST has the same result for every cut of its input into batches, apart from the
rounding of floating-point sums (`ungroupedAggregate_cut`). The partial FIRST of an empty batch is a
NULL that counts as a row, so that it may be taken for the first value.
-/

namespace Sirius.Aggregate

open Lib List
open Sirius.Sort (Row)
open Sirius.Expression (DataType LogicalType TypeId getCudfType)

/-! ## One aggregate -/

section Results

variable {V : Type} {P : Payload V} {schema : List DataType} {batches : List (List (Row V))}
  {spec : AggregateSpec} {o : Output V} {f : List (Row V) → Scalar V} {type : DataType}

/-! ### Columns -/

def values (c : Nat) (rows : List (Row V)) : List (Option V) := rows.map fun row => row.getD c none

theorem values_flatten (c : Nat) (batches : List (List (Row V))) :
    values c batches.flatten = (batches.map (values c)).flatten := map_flatten ..

theorem tableColumn_eq_ok_iff {rows : List (Row V)} {c : Nat} {col : Column V} :
    tableColumn schema rows c = .ok col ↔
      ∃ type, schema[c]? = some type ∧ (⟨type, values c rows⟩ : Column V) = col := by
  unfold tableColumn
  split
  next type h =>
    simp [h, values]
  next h =>
    simp [h]

theorem tableColumn_eq {c : Nat} (htype : schema[c]? = some type) (rows : List (Row V)) :
    tableColumn schema rows c = .ok ⟨type, values c rows⟩ :=
  tableColumn_eq_ok_iff.2 ⟨type, htype, rfl⟩

theorem length_values (c : Nat) (rows : List (Row V)) : (values c rows).length = rows.length :=
  length_map _

theorem firstElement_eq_ok_iff {vs : List (Option V)} {s : Scalar V} :
    firstElement ⟨type, vs⟩ = .ok s ↔
      (type.isFixedWidth ∨ vs ≠ []) ∧ (⟨type, vs.head?.join⟩ : Scalar V) = s := by
  unfold firstElement
  cases vs with
  | nil => by_cases h : type.isFixedWidth <;> simp [h]
  | cons v vs => simp

theorem summable_int64 : Summable (.make .int64) := .inr (.inr rfl)

theorem sumOf_counts (ns : List Nat) (hns : ns ≠ []) :
    P.sumOf (.make .int64) (.make .int64) (ns.map fun n : Nat => some (P.ofInt (wrap .int64 n))) =
      some (P.ofInt (wrap .int64 ns.sum)) := by
  have hred : (ns.map fun n : Nat => some (P.ofInt (wrap .int64 n))).reduceOption =
      ns.map fun n : Nat => P.ofInt (wrap .int64 n) := by
    simp [reduceOption, filterMap_map]
  have hwrap := summable_int64.wrap_sum rfl (ns.map fun n : Nat => (n : Int))
  rw [map_map] at hwrap
  rw [sumOf_of_ne_nil (by simpa [hred] using hns), hred, Payload.sum, if_neg (by decide),
    map_map, Nat.cast_list_sum]
  simp only [Function.comp_def, P.toInt_ofInt] at hwrap ⊢
  exact congrArg (some ∘ P.ofInt) hwrap

variable (P) in
/-- Floating-point partial sums add up to the sum of the whole. -/
def SumKept (types : DataType × DataType) (parts : List (List (Option V))) : Prop :=
  isFloat types.1 ∨ isFloat types.2 → parts.flatten.reduceOption ≠ [] →
    P.sum types.2 types.2 (partialSums P types.1 types.2 parts) =
      P.sum types.1 types.2 parts.flatten.reduceOption

theorem sumOf_parts_iff (types : DataType × DataType) (h : Summable types.2)
    (parts : List (List (Option V))) :
    P.sumOf types.2 types.2 (parts.map (P.sumOf types.1 types.2)) =
      P.sumOf types.1 types.2 parts.flatten ↔ SumKept P types parts := by
  by_cases hnil : parts.flatten.reduceOption = []
  · have hparts := (partialSums_eq_nil_iff (P := P) types.1 types.2 parts).2 hnil
    rw [sumOf_of_nil hnil, sumOf_of_nil hparts]
    simp [SumKept, hnil]
  · have hparts := (not_congr
      (partialSums_eq_nil_iff (P := P) types.1 types.2 parts)).2 hnil
    rw [sumOf_of_ne_nil hnil, sumOf_of_ne_nil hparts, Option.some.injEq]
    unfold SumKept
    by_cases hf : isFloat types.1 ∨ isFloat types.2
    · simp only [hf, hnil, ne_eq, not_false_eq_true, true_implies]
      rfl
    · simp only [hf, false_implies, iff_true]
      rw [not_or, Bool.not_eq_true, Bool.not_eq_true] at hf
      exact h.sum_partialSums hf.1 hf.2 parts

theorem sumOf_parts_eq_none_iff (input out : DataType) (parts : List (List (Option V))) :
    P.sumOf out out (parts.map (P.sumOf input out)) = none ↔ P.sumOf input out parts.flatten = none := by
  unfold Payload.sumOf
  simp only [ite_eq_left_iff, reduceCtorEq, imp_false, not_not]
  exact partialSums_eq_nil_iff input out parts

variable (P) in
def average (returnType : LogicalType) (type : DataType) (sum : Option V) (n : Nat) : Output V :=
  if wrap .int64 n = 0 then .zero returnType
  else .quotient returnType type (sum.getD P.stale) (wrap .int64 n)

theorem average_eq_iff {returnType : LogicalType} {x y : Option V} {n : Nat}
    (h : x = none ↔ y = none) :
    average P returnType type x n = average P returnType type y n ↔ wrap .int64 n = 0 ∨ x = y := by
  unfold average
  by_cases hn : wrap .int64 n = 0
  · simp [hn]
  · cases x <;> cases y <;> simp_all

variable [LinearOrder V] {P : Cudf V} (parts : List (List (Option V)))

theorem result_eq_ok_iff (fs : List (List (Row V) → Scalar V)) {Q : List (Row V) → Prop}
    (hbatches : batches ≠ []) (hlength : spec.kind.mergeKinds.length = fs.length)
    (hlocal : ∀ b cols, spec.localColumns P schema b = .ok cols ↔ Q b ∧ fs.map (· b) = cols) :
    spec.result P schema batches = .ok o ↔ (∀ b ∈ batches, Q b) ∧
      ∃ m, (spec.kind.mergeKinds.zip fs).mapM (fun kf => mergedScalar P kf.1 (batches.map kf.2)) = .ok m ∧
        spec.finish P m = .ok o := by
  unfold AggregateSpec.result
  simp only [bind_eq_ok_iff, mapM_eq_ok_iff_forall fun b _ cols => hlocal b cols]
  constructor
  · rintro ⟨_, ⟨hQ, rfl⟩, m, hm, ho⟩
    exact ⟨hQ, m, merged_eq hbatches hlength ▸ hm, ho⟩
  · rintro ⟨hQ, m, hm, ho⟩
    exact ⟨_, ⟨hQ, rfl⟩, m, merged_eq hbatches hlength ▸ hm, ho⟩

/-- The result of an aggregate with one partial column. -/
theorem result_one_eq_ok_iff {kind : Reduction} {Q : List (Row V) → Prop} (hbatches : batches ≠ [])
    (hkind : spec.kind.mergeKinds = [kind])
    (hlocal : ∀ b cols, spec.localColumns P schema b = .ok cols ↔ Q b ∧ [f b] = cols) :
    spec.result P schema batches = .ok o ↔ (∀ b ∈ batches, Q b) ∧
      ∃ s, mergedScalar P kind (batches.map f) = .ok s ∧ .column s = o := by
  have havg : spec.kind ≠ .avg := by
    intro h
    rw [h] at hkind
    cases hkind
  rw [result_eq_ok_iff [f] hbatches (by rw [hkind]; rfl) hlocal, hkind]
  refine and_congr_right fun _ => ?_
  cases h : mergedScalar P kind (batches.map f) <;>
    simp [AggregateSpec.finish, havg, mergedColumn, h, mapM_cons, bind, Except.bind, pure, Except.pure]

theorem result_avg_eq_ok_iff {Q : List (Row V) → Prop} (hbatches : batches ≠ [])
    (hkind : spec.kind = .avg)
    (hlocal : ∀ b cols, spec.localColumns P schema b = .ok cols ↔ Q b ∧ [f b, rowCount P b] = cols) :
    spec.result P schema batches = .ok o ↔ (∀ b ∈ batches, Q b) ∧
      ∃ s n, mergedScalar P .sum (batches.map f) = .ok s ∧
        mergedScalar P .sum (batches.map (rowCount P)) = .ok n ∧
        makeAvgColumn P s n spec.returnType = .ok o := by
  rw [result_eq_ok_iff [f, rowCount P] hbatches (by rw [hkind]; rfl) hlocal]
  refine and_congr_right fun _ => ?_
  cases h : mergedScalar P .sum (batches.map f) <;>
    cases h' : mergedScalar P .sum (batches.map (rowCount P)) <;>
    simp [AggregateSpec.finish, hkind, mergedColumn, h, h', mapM_cons, bind, Except.bind, pure,
      Except.pure, AggregateKind.mergeKinds]

/-! ### Partial columns -/

variable (P) in
def countScalar (n : Nat) : Scalar V := ⟨.make .int64, some (P.ofInt (wrap .int64 n))⟩

theorem localColumns_countStar (h : spec.kind = .countStar) (b : List (Row V))
    (cols : List (Scalar V)) :
    spec.localColumns P schema b = .ok cols ↔ True ∧ [countScalar P b.length] = cols := by
  unfold AggregateSpec.localColumns
  simp [h, rowCount, countScalar]

theorem localColumns_count (h : spec.kind = .count) (b : List (Row V)) (cols : List (Scalar V)) :
    spec.localColumns P schema b = .ok cols ↔ (∃ type, schema[spec.inputIdx]? = some type) ∧
      [countScalar P (values spec.inputIdx b).reduceOption.length] = cols := by
  unfold AggregateSpec.localColumns
  simp only [h, bind_eq_ok_iff, tableColumn_eq_ok_iff, P.reduce_count]
  constructor
  · rintro ⟨_, ⟨type, htype, rfl⟩, s, ⟨⟩, ⟨⟩⟩
    exact ⟨⟨type, htype⟩, rfl⟩
  · rintro ⟨⟨type, htype⟩, rfl⟩
    exact ⟨_, ⟨type, htype, rfl⟩, _, rfl, rfl⟩

theorem localColumns_of_no_column (h : spec.kind ≠ .countStar)
    (htype : schema[spec.inputIdx]? = none) (b : List (Row V)) (cols : List (Scalar V)) :
    spec.localColumns P schema b ≠ .ok cols := by
  have hcol : tableColumn schema b spec.inputIdx =
      .error (.exception "vector::_M_range_check") := by
    rw [tableColumn, htype]
  unfold AggregateSpec.localColumns
  split
  · exact absurd ‹_› h
  all_goals
    rw [hcol]
    exact nofun

theorem localColumns_first (h : spec.kind = .first) (htype : schema[spec.inputIdx]? = some type)
    (b : List (Row V)) (cols : List (Scalar V)) :
    spec.localColumns P schema b = .ok cols ↔
      (type.isFixedWidth ∨ values spec.inputIdx b ≠ []) ∧
      [(⟨type, (values spec.inputIdx b).head?.join⟩ : Scalar V)] = cols := by
  unfold AggregateSpec.localColumns
  simp only [h, tableColumn_eq htype, ok_bind, bind_eq_ok_iff, firstElement_eq_ok_iff]
  constructor
  · rintro ⟨_, ⟨hfirst, rfl⟩, ⟨⟩⟩
    exact ⟨hfirst, rfl⟩
  · rintro ⟨hfirst, rfl⟩
    exact ⟨_, ⟨hfirst, rfl⟩, rfl⟩

/-- The reductions of SUM, MIN, MAX and AVG need a type for the result. -/
theorem localColumns_reduced (h : spec.kind ∈ [.sum, .min, .max, .avg])
    (htype : schema[spec.inputIdx]? = some type) (b : List (Row V)) :
    spec.localColumns P schema b = (do
      let types := reductionTypes spec.kind type (← toCudfType spec.returnType)
      let scalar ← P.reduce ⟨types.1, values spec.inputIdx b⟩ spec.kind.reduction types.2
      return if spec.kind = .avg then [scalar, rowCount P b] else [scalar]) := by
  unfold AggregateSpec.localColumns
  simp only [mem_cons, not_mem_nil, or_false] at h
  rcases h with h | h | h | h <;> simp only [h, tableColumn_eq htype, ok_bind]

/-! ### Whole and cut -/

/-- Where the whole input has a result, a cut has the same under a condition. Where it has none, no
cut has one. -/
structure CutAgrees (P : Cudf V) (schema : List DataType) (batches : List (List (Row V)))
    (spec : AggregateSpec) (K : Prop) : Prop where
  same_iff : ∀ o, spec.result P schema [batches.flatten] = .ok o →
    (spec.result P schema batches = .ok o ↔ K)
  whole_of_cut : ∀ o, spec.result P schema batches = .ok o →
    ∃ o', spec.result P schema [batches.flatten] = .ok o'

variable {K : Prop} {out : DataType}

theorem cutAgrees_of_never (hbatches : batches ≠ [])
    (h : ∀ bs ≠ [], ∀ o, spec.result P schema bs ≠ .ok o) : CutAgrees P schema batches spec K :=
  ⟨fun o ho => absurd ho (h _ (by simp) o), fun o ho => absurd ho (h _ hbatches o)⟩

theorem cutAgrees_of_never_local (hbatches : batches ≠ [])
    (h : ∀ b cols, spec.localColumns P schema b ≠ .ok cols) :
    CutAgrees P schema batches spec K := by
  refine cutAgrees_of_never hbatches fun bs hbs o hres => ?_
  obtain ⟨parts, hparts, -⟩ := bind_eq_ok_iff.1 hres
  obtain ⟨b, bs, rfl⟩ := exists_cons_of_ne_nil hbs
  obtain ⟨cols, hcols⟩ := exists_mapM_eq_ok_iff.1 ⟨parts, hparts⟩ b (by simp)
  exact h b cols hcols

theorem cutAgrees_of_closed {A : List (List (Row V)) → Prop} {g : List (List (Row V)) → Output V}
    (hbatches : batches ≠ [])
    (h : ∀ bs ≠ [], ∀ o, spec.result P schema bs = .ok o ↔ A bs ∧ g bs = o)
    (hA : A batches → A [batches.flatten])
    (hK : A [batches.flatten] → (A batches ∧ g batches = g [batches.flatten] ↔ K)) :
    CutAgrees P schema batches spec K := by
  constructor
  · intro o ho
    obtain ⟨hwhole, rfl⟩ := (h _ (by simp) o).1 ho
    rw [h _ hbatches, hK hwhole]
  · intro o ho
    exact ⟨_, (h _ (by simp) _).2 ⟨hA ((h _ hbatches o).1 ho).1, rfl⟩⟩

/-- Counts are added up. -/
theorem mergedScalar_count {ι : Type} {keys : List ι} (hkeys : keys ≠ []) (n : ι → Nat) :
    mergedScalar P .sum (keys.map fun b => countScalar P (n b)) =
      .ok (countScalar P (keys.map n).sum) := by
  have hsum := sumOf_counts (P := P.toPayload) (keys.map n) (by simpa using hkeys)
  rw [map_map] at hsum
  unfold countScalar
  rw [mergedScalar_sum hkeys summable_int64 fun b => sumOf_counts [n b] (by simp)]
  exact congrArg (fun x => Except.ok (Scalar.mk _ x)) hsum

theorem cutAgrees_countStar (hbatches : batches ≠ []) (h : spec.kind = .countStar) :
    CutAgrees P schema batches spec True := by
  refine cutAgrees_of_closed (A := fun _ => True)
    (g := fun bs => .column (countScalar P (bs.map length).sum)) hbatches (fun bs hbs o => ?_)
    id fun _ => ?_
  · rw [result_one_eq_ok_iff hbs (by rw [h]; rfl) (localColumns_countStar h),
      mergedScalar_count hbs]
    simp
  · simp

theorem cutAgrees_count (hbatches : batches ≠ []) (h : spec.kind = .count) :
    CutAgrees P schema batches spec True := by
  refine cutAgrees_of_closed (A := fun _ => ∃ type, schema[spec.inputIdx]? = some type)
    (g := fun bs => .column (countScalar P
      (bs.map fun b => (values spec.inputIdx b).reduceOption.length).sum)) hbatches
    (fun bs hbs o => ?_) id fun htype => ?_
  · rw [result_one_eq_ok_iff hbs (by rw [h]; rfl) (localColumns_count h), mergedScalar_count hbs]
    obtain ⟨b, bs, rfl⟩ := exists_cons_of_ne_nil hbs
    simp only [forall_mem_cons, Except.ok.injEq, exists_eq_left']
    exact ⟨fun ⟨⟨htype, _⟩, ho⟩ => ⟨htype, ho⟩, fun ⟨htype, ho⟩ => ⟨⟨htype, fun _ _ => htype⟩, ho⟩⟩
  · simp [htype, values_flatten, reduceOption, filterMap_flatten, List.length_flatten, Function.comp_def]

/-- The first row of the input decides: it is in the first batch, or it is NULL. A column of strings
must not have empty batches at all. -/
def FirstKept (type : DataType) (parts : List (List (Option V))) : Prop :=
  if type.isFixedWidth then parts.head? ≠ some [] ∨ parts.flatten.head?.join = none
  else ∀ part ∈ parts, part ≠ []

theorem cutAgrees_first (hbatches : batches ≠ []) (h : spec.kind = .first)
    (htype : schema[spec.inputIdx]? = some type) :
    CutAgrees P schema batches spec (FirstKept type (batches.map (values spec.inputIdx))) := by
  refine cutAgrees_of_closed
    (A := fun bs => ∀ b ∈ bs, type.isFixedWidth ∨ values spec.inputIdx b ≠ [])
    (g := fun bs => .column ⟨type, (values spec.inputIdx (bs.headD [])).head?.join⟩) hbatches
    (fun bs hbs o => ?_) (fun hA => ?_) fun hA => ?_
  · rw [result_one_eq_ok_iff hbs (by rw [h]; rfl) (localColumns_first h htype)]
    obtain ⟨b, bs, rfl⟩ := exists_cons_of_ne_nil hbs
    rw [mergedScalar_first (fun b => (values spec.inputIdx b).head?.join)]
    simp
  · obtain ⟨b, bs, rfl⟩ := exists_cons_of_ne_nil hbatches
    simp only [mem_singleton, forall_eq, values_flatten]
    exact (hA b (by simp)).imp_right fun hne => by simp [hne]
  · obtain ⟨b, bs, rfl⟩ := exists_cons_of_ne_nil hbatches
    simp only [mem_singleton, forall_eq] at hA
    simp only [headD_cons, Output.column.injEq, Scalar.mk.injEq, true_and, values_flatten,
      FirstKept, map_cons, head?_cons, ne_eq, Option.some.injEq]
    by_cases hfixed : type.isFixedWidth
    · simp only [hfixed, if_true, true_or, implies_true, true_and]
      by_cases hb : values spec.inputIdx b = []
      · simp [hb, eq_comm]
      · rw [flatten_cons, head?_append_of_ne_nil _ hb]
        simp [hb]
    · simp only [hfixed, false_or, if_false, Bool.false_eq_true]
      constructor
      · rintro ⟨hne, -⟩ part hpart
        obtain ⟨b', hb', rfl⟩ := mem_map.1 ((map_cons ..).symm ▸ hpart)
        exact hne b' hb'
      · intro hne
        refine ⟨fun b' hb' => hne _ ?_, ?_⟩
        · rw [← map_cons]
          exact mem_map_of_mem hb'
        · rw [flatten_cons, head?_append_of_ne_nil _ (hne _ (by simp))]

/-- The types a SUM is bound with. The planner makes a HUGEINT of DuckDB a BIGINT, as cuDF has no
integers of 128 bits. -/
def SumType (type : LogicalType) : Prop := type.id ∈ [.bigint, .hugeint, .double, .decimal]

theorem summable_of_sumType {returnType : LogicalType} (hret : SumType returnType)
    (hout : toCudfType returnType = .ok out)
    (hsupports : supportsSum (reductionTypes .sum type out).1 (reductionTypes .sum type out).2 = true) :
    Summable (reductionTypes .sum type out).2 := by
  by_cases hdec : isDecimal type
  · obtain ⟨id, scale⟩ := type
    cases id <;> simp_all [isDecimal, reductionTypes, widenForSum, Summable, isFloat]
  · have htypes : reductionTypes .sum type out = (type, out) := by
      obtain ⟨id, scale⟩ := type
      cases id <;> simp_all [isDecimal, reductionTypes, widenForSum]
    rw [htypes, supportsSum, if_neg hdec, Bool.and_eq_true] at hsupports
    rw [htypes]
    obtain ⟨id, precision, scale⟩ := returnType
    simp only [SumType, mem_cons, not_mem_nil, or_false] at hret
    rcases hret with rfl | rfl | rfl | rfl
    · cases hout
      exact .inr (.inr rfl)
    · cases hout
      exact .inr (.inr rfl)
    · cases hout
      exact .inl rfl
    · have hdecimal : isDecimal out = true := by
        unfold toCudfType getCudfType at hout
        simp only at hout
        split_ifs at hout <;> cases hout <;> rfl
      exact .inr (.inl hdecimal)

theorem minOf_flatten : minOf (parts.map minOf) = minOf parts.flatten := foldr_op_flatten parts

theorem maxOf_flatten : maxOf (parts.map maxOf) = maxOf parts.flatten := foldr_op_flatten parts

/-! ### AVG -/

def avgType (type : DataType) : DataType := if isDecimal type then type else widenForAvg type

theorem reductionTypes_avg (type out : DataType) :
    reductionTypes .avg type out = (avgType type, avgType type) := by
  by_cases h : isDecimal type <;> simp [reductionTypes, avgType, h]

theorem summable_avgType_of_readsSum
    (h : readsSum (avgType type) = true ∨ readsSum (sumOutputType (avgType type)) = true) :
    Summable (avgType type) := by
  obtain ⟨id, scale⟩ := type
  cases id <;>
    simp_all [avgType, widenForAvg, isDecimal, readsSum, sumOutputType, Summable, isFloat,
      DataType.make]

theorem Summable.readsSum (h : Summable type) : readsSum type = true := by
  obtain ⟨id, scale⟩ := type
  cases id <;> simp_all [Summable, isFloat, isDecimal, Aggregate.readsSum]

theorem type_mergedScalar_sum {ι : Type} {keys : List ι} {v : ι → Option V} {s : Scalar V}
    (h : mergedScalar P .sum (keys.map fun b => ⟨type, v b⟩) = .ok s) :
    s.type = type ∨ s.type = sumOutputType type := by
  match keys with
  | [] =>
    obtain ⟨col, hcol, -⟩ := bind_eq_ok_iff.1 h
    exact absurd rfl ((P.concatenate_iff _ _).1 hcol).1
  | [b] =>
    cases h
    exact .inl rfl
  | b :: b' :: keys =>
    change (P.concatenate _ >>= mergeColumn P .sum) = _ at h
    rw [concatenate_map (cons_ne_nil _ _), ok_bind, mergeColumn, if_pos rfl, P.reduce_sum_iff] at h
    obtain ⟨-, rfl⟩ := h
    exact .inr rfl

theorem readsSum_of_makeAvgColumn {sum count : Scalar V} {returnType : LogicalType}
    (h : makeAvgColumn P sum count returnType = .ok o) : readsSum sum.type = true := by
  obtain ⟨⟨sumValue, countHost⟩, -, h⟩ := bind_eq_ok_iff.1 h
  by_contra hreads
  simp [Bool.eq_false_iff.2 hreads] at h

theorem makeAvgColumn_eq_ok_iff (h : Summable type) {x : Option V} (hx : P.sumOf type type [x] = x)
    (n : Nat) (returnType : LogicalType) :
    makeAvgColumn P ⟨type, x⟩ (countScalar P n) returnType = .ok o ↔
      writesAverage returnType = true ∧ average P returnType type x n = o := by
  have hsum : P.reduce ⟨type, [x]⟩ .sum type = .ok ⟨type, x⟩ :=
    (P.reduce_sum_iff _ _ _).2 ⟨h.supportsSum, by rw [hx]⟩
  have hcount : P.reduce ⟨.make .int64, [some (P.ofInt (wrap .int64 n))]⟩ .sum (.make .int64) =
      .ok ⟨.make .int64, some (P.ofInt (wrap .int64 n))⟩ :=
    (P.reduce_sum_iff _ _ _).2 ⟨summable_int64.supportsSum,
      congrArg (Scalar.mk _) (sumOf_counts [n] (by simp))⟩
  have hoperands : avgOperands P ⟨type, x⟩ (countScalar P n) = .ok (⟨type, x⟩, wrap .int64 n) := by
    unfold avgOperands countScalar
    rw [hsum, hcount]
    show Except.ok _ = _
    rw [Scalar.read, Option.getD_some, P.toInt_ofInt]
  unfold makeAvgColumn average
  rw [hoperands, ok_bind]
  simp only [h.readsSum, reduceCtorEq, if_false]
  by_cases hwrites : writesAverage returnType
  · simp only [hwrites, reduceCtorEq, if_false, true_and]
    split <;> simp [Scalar.read]
  · simp [hwrites]

/-! ### SUM, MIN, MAX and AVG -/

section Typed

variable (htype : schema[spec.inputIdx]? = some type) (hout : toCudfType spec.returnType = .ok out)

include htype hout

/-- SUM, MIN, MAX and AVG have a result for columns and types that cuDF takes. -/
theorem localColumns_reduced_of_ok (h : spec.kind ∈ [.sum, .min, .max, .avg]) (b : List (Row V))
    (cols : List (Scalar V)) :
    spec.localColumns P schema b = .ok cols ↔
      ∃ s, P.reduce ⟨(reductionTypes spec.kind type out).1, values spec.inputIdx b⟩
          spec.kind.reduction (reductionTypes spec.kind type out).2 = .ok s ∧
        (if spec.kind = .avg then [s, rowCount P b] else [s]) = cols := by
  rw [localColumns_reduced h htype, hout]
  simp only [ok_bind, bind_eq_ok_iff, pure, Except.pure, Except.ok.injEq]

theorem cutAgrees_sum (hbatches : batches ≠ []) (h : spec.kind = .sum)
    (hret : SumType spec.returnType) :
    CutAgrees P schema batches spec
      (SumKept P (reductionTypes .sum type out) (batches.map (values spec.inputIdx))) := by
  have hlocal := localColumns_reduced_of_ok (P := P) htype hout (by simp [h])
  generalize htypes : reductionTypes .sum type out = types
  simp only [h, htypes, AggregateKind.reduction, P.reduce_sum_iff, reduceCtorEq, if_false] at hlocal
  by_cases hsupports : supportsSum types.1 types.2
  · have hsum : Summable types.2 := by
      subst htypes
      exact summable_of_sumType hret hout hsupports
    refine cutAgrees_of_closed (A := fun _ => True)
      (g := fun bs => .column ⟨types.2, P.sumOf types.2 types.2
        (bs.map fun b => P.sumOf types.1 types.2 (values spec.inputIdx b))⟩) hbatches
      (fun bs hbs o => ?_) id fun _ => ?_
    · rw [result_one_eq_ok_iff (Q := fun _ => True)
        (f := fun b => ⟨types.2, P.sumOf types.1 types.2 (values spec.inputIdx b)⟩) hbs
        (by rw [h]; rfl) (by simpa [hsupports] using hlocal),
        mergedScalar_sum hbs hsum fun b => hsum.sumOf_singleton _]
      simp
    · have hiff := sumOf_parts_iff (P := P) types hsum (batches.map (values spec.inputIdx))
      rw [map_map, ← values_flatten] at hiff
      simp only [true_and, map_cons, map_nil, hsum.sumOf_singleton,
        Output.column.injEq, Scalar.mk.injEq]
      exact hiff
  · refine cutAgrees_of_never_local hbatches fun b cols hcols => ?_
    obtain ⟨s, ⟨hs, -⟩, -⟩ := (hlocal b cols).1 hcols
    exact hsupports hs

theorem cutAgrees_fold (fold : List (Option V) → Option V) (hbatches : batches ≠ [])
    (h : spec.kind = .min ∨ spec.kind = .max)
    (hreduce : ∀ col out s, P.reduce col spec.kind.reduction out = .ok s ↔
      col.type = out ∧ ⟨out, fold col.values⟩ = s)
    (hsingle : ∀ x, fold [x] = x)
    (hfold : ∀ parts : List (List (Option V)), fold (parts.map fold) = fold parts.flatten) :
    CutAgrees P schema batches spec True := by
  have havg : spec.kind ≠ .avg := by rcases h with h | h <;> simp [h]
  have hkind : spec.kind.mergeKinds = [spec.kind.reduction] ∧ spec.kind.reduction ≠ .sum := by
    rcases h with h | h <;> simp [h, AggregateKind.mergeKinds, AggregateKind.reduction]
  have hlocal := localColumns_reduced_of_ok (P := P) htype hout (by rcases h with h | h <;> simp [h])
  generalize reductionTypes spec.kind type out = types at hlocal
  simp only [havg, hreduce, if_false] at hlocal
  by_cases htypes : types.1 = types.2
  · refine cutAgrees_of_closed (A := fun _ => True)
      (g := fun bs => .column ⟨types.2, fold (bs.map fun b => fold (values spec.inputIdx b))⟩)
      hbatches (fun bs hbs o => ?_) id fun _ => ?_
    · rw [result_one_eq_ok_iff (Q := fun _ => True)
        (f := fun b => ⟨types.2, fold (values spec.inputIdx b)⟩) hbs hkind.1
        (by simpa [htypes] using hlocal),
        mergedScalar_fold hbs hkind.2 hsingle fun vs => (hreduce _ _ _).2 ⟨rfl, rfl⟩]
      simp
    · have hparts := hfold (batches.map (values spec.inputIdx))
      rw [map_map, ← values_flatten] at hparts
      simp only [true_and, map_cons, map_nil, hsingle, iff_true, Output.column.injEq,
        Scalar.mk.injEq]
      exact hparts
  · refine cutAgrees_of_never_local hbatches fun b cols hcols => ?_
    obtain ⟨s, ⟨hs, -⟩, -⟩ := (hlocal b cols).1 hcols
    exact htypes hs

theorem result_avg_iff_of_summable (hbatches : batches ≠ []) (h : spec.kind = .avg)
    (hsum : Summable (avgType type)) :
    spec.result P schema batches = .ok o ↔ writesAverage spec.returnType = true ∧
      average P spec.returnType (avgType type)
        (P.sumOf (avgType type) (avgType type) (batches.map fun b =>
          P.sumOf (avgType type) (avgType type) (values spec.inputIdx b)))
        batches.flatten.length = o := by
  have hlocal := localColumns_reduced_of_ok (P := P) htype hout (by simp [h])
  simp only [h, reductionTypes_avg, AggregateKind.reduction, P.reduce_sum_iff, hsum.supportsSum,
    if_true, true_and, exists_eq_left'] at hlocal
  have hcount : mergedScalar P .sum (batches.map (rowCount P)) =
      .ok (countScalar P batches.flatten.length) := by
    rw [List.length_flatten]
    exact mergedScalar_count hbatches List.length
  rw [result_avg_eq_ok_iff (Q := fun _ => True) hbatches h (by simpa using hlocal), hcount,
    mergedScalar_sum hbatches hsum fun b => hsum.sumOf_singleton _]
  simp only [implies_true, true_and, Except.ok.injEq, exists_eq_left', exists_and_left]
  exact makeAvgColumn_eq_ok_iff hsum (hsum.sumOf_singleton _) _ _

theorem result_avg_ne_ok (hbatches : batches ≠ []) (h : spec.kind = .avg)
    (hsum : ¬Summable (avgType type)) : spec.result P schema batches ≠ .ok o := by
  intro hres
  have hlocal := localColumns_reduced_of_ok (P := P) htype hout (by simp [h])
  simp only [h, reductionTypes_avg, AggregateKind.reduction, P.reduce_sum_iff, if_true] at hlocal
  by_cases hsupports : supportsSum (avgType type) (avgType type)
  · simp only [hsupports, true_and, exists_eq_left'] at hlocal
    rw [result_avg_eq_ok_iff (Q := fun _ => True) hbatches h (by simpa using hlocal)] at hres
    obtain ⟨-, s, n, hs, -, ho⟩ := hres
    have hreads := readsSum_of_makeAvgColumn ho
    refine hsum (summable_avgType_of_readsSum ?_)
    rcases type_mergedScalar_sum hs with heq | heq
    · exact .inl (heq ▸ hreads)
    · exact .inr (heq ▸ hreads)
  · obtain ⟨parts, hparts, -⟩ := bind_eq_ok_iff.1 hres
    obtain ⟨b, bs, rfl⟩ := exists_cons_of_ne_nil hbatches
    obtain ⟨cols, hcols⟩ := exists_mapM_eq_ok_iff.1 ⟨parts, hparts⟩ b (by simp)
    obtain ⟨s, ⟨hs, -⟩, -⟩ := (hlocal b cols).1 hcols
    exact hsupports hs

theorem cutAgrees_avg (hbatches : batches ≠ []) (h : spec.kind = .avg) :
    CutAgrees P schema batches spec
      (wrap .int64 (batches.map (values spec.inputIdx)).flatten.length = 0 ∨
        SumKept P (reductionTypes .avg type out) (batches.map (values spec.inputIdx))) := by
  by_cases hsum : Summable (avgType type)
  · refine cutAgrees_of_closed (A := fun _ => writesAverage spec.returnType = true) hbatches
      (fun bs hbs o => result_avg_iff_of_summable htype hout hbs h hsum) id fun hwrites => ?_
    have hiff := sumOf_parts_iff (P := P) (avgType type, avgType type) hsum
      (batches.map (values spec.inputIdx))
    have hnone := sumOf_parts_eq_none_iff (P := P) (avgType type) (avgType type)
      (batches.map (values spec.inputIdx))
    rw [map_map, ← values_flatten] at hiff hnone
    rw [reductionTypes_avg, ← hiff, ← values_flatten, length_values]
    simp only [hwrites, true_and, map_cons, map_nil, hsum.sumOf_singleton,
      flatten_cons, flatten_nil, append_nil]
    exact average_eq_iff hnone
  · exact cutAgrees_of_never hbatches fun bs hbs o => result_avg_ne_ok htype hout hbs h hsum

end Typed

theorem cutAgrees_of_typed (hbatches : batches ≠ []) (h : spec.kind ∈ [.sum, .min, .max, .avg])
    (htype : schema[spec.inputIdx]? = some type)
    (hK : ∀ out, toCudfType spec.returnType = .ok out → CutAgrees P schema batches spec K) :
    CutAgrees P schema batches spec K := by
  cases hout : toCudfType spec.returnType with
  | ok out => exact hK out hout
  | error e =>
    refine cutAgrees_of_never_local hbatches fun b cols => ?_
    rw [localColumns_reduced h htype, hout]
    exact nofun

/-! ### All kinds -/

variable (P) in
/-- The condition under which an aggregate does not depend on the cut of its column. -/
def AggregateKind.Kept (kind : AggregateKind) (type : DataType) (returnType : LogicalType)
    (parts : List (List (Option V))) : Prop :=
  match kind with
  | .first => FirstKept type parts
  | .sum => ∀ out, toCudfType returnType = .ok out → SumKept P (reductionTypes .sum type out) parts
  | .avg => ∀ out, toCudfType returnType = .ok out →
      wrap .int64 parts.flatten.length = 0 ∨ SumKept P (reductionTypes .avg type out) parts
  | .min | .max | .count | .countStar => True

variable (P) in
def AggregateSpec.Kept (spec : AggregateSpec) (schema : List DataType)
    (batches : List (List (Row V))) : Prop :=
  ∀ type, schema[spec.inputIdx]? = some type →
    spec.kind.Kept P type spec.returnType (batches.map (values spec.inputIdx))

theorem CutAgrees.congr {K' : Prop} (h : CutAgrees P schema batches spec K) (hK : K ↔ K') :
    CutAgrees P schema batches spec K' :=
  ⟨fun o ho => (h.same_iff o ho).trans hK, h.whole_of_cut⟩

/-- **One aggregate.** The whole input and the cut have the same result if the aggregate is kept. -/
theorem cutAgrees_kept (hbatches : batches ≠ []) (hret : spec.kind = .sum → SumType spec.returnType) :
    CutAgrees P schema batches spec (spec.Kept P schema batches) := by
  by_cases hstar : spec.kind = .countStar
  · refine (cutAgrees_countStar hbatches hstar).congr (iff_of_true trivial fun type _ => ?_)
    rw [hstar]
    trivial
  cases htype : schema[spec.inputIdx]? with
  | none => exact cutAgrees_of_never_local hbatches (localColumns_of_no_column hstar htype)
  | some type =>
    have hkept : spec.Kept P schema batches ↔
        spec.kind.Kept P type spec.returnType (batches.map (values spec.inputIdx)) := by
      simp [AggregateSpec.Kept, htype]
    refine CutAgrees.congr ?_ hkept.symm
    cases hkind : spec.kind with
    | countStar => exact absurd hkind hstar
    | count => exact cutAgrees_count hbatches hkind
    | first => exact cutAgrees_first hbatches hkind htype
    | sum =>
      refine cutAgrees_of_typed hbatches (by simp [hkind]) htype fun out hout =>
        (cutAgrees_sum htype hout hbatches hkind (hret hkind)).congr ?_
      simp [AggregateKind.Kept, hout]
    | avg =>
      refine cutAgrees_of_typed hbatches (by simp [hkind]) htype fun out hout =>
        (cutAgrees_avg htype hout hbatches hkind).congr ?_
      simp [AggregateKind.Kept, hout]
    | min =>
      exact cutAgrees_of_typed hbatches (by simp [hkind]) htype fun out hout =>
        cutAgrees_fold htype hout minOf hbatches (.inl hkind) (by rw [hkind]; exact P.reduce_min_iff)
          (by simp [minOf]) minOf_flatten
    | max =>
      exact cutAgrees_of_typed hbatches (by simp [hkind]) htype fun out hout =>
        cutAgrees_fold htype hout maxOf hbatches (.inr hkind) (by rw [hkind]; exact P.reduce_max_iff)
          (by simp [maxOf]) maxOf_flatten

end Results

/-! ## Lists of aggregates -/

section Cut

variable {V : Type} [LinearOrder V]

def UngroupedNode.Kept (P : Cudf V) (schema : List DataType) (batches : List (List (Row V)))
    (aggr : UngroupedNode) : Prop :=
  ∀ kind c returnType, aggr.input = .ok (kind, c, returnType) → ∀ type, schema[c]? = some type →
    kind.Kept P type returnType (batches.map (values c))

/-- A SUM has a type the planner gives it. -/
def UngroupedNode.SumBound (aggr : UngroupedNode) : Prop :=
  aggr.function = .sum ∨ aggr.function = .sumNoOverflow → SumType aggr.returnType

variable {P : Cudf V} {schema : List DataType} {aggregates : List (Option UngroupedNode)}
  {batches : List (List (Row V))} {aggr : UngroupedNode} {spec : AggregateSpec}

theorem UngroupedNode.SumBound.sumType (h : aggr.SumBound) {c : Nat} {returnType : LogicalType}
    (hinput : aggr.input = .ok (.sum, c, returnType)) : SumType returnType := by
  unfold UngroupedNode.input at hinput
  cases hf : aggr.function <;> rw [hf] at hinput <;> simp only at hinput
  case sum =>
    obtain ⟨c', -, ⟨⟩⟩ := bind_eq_ok_iff.1 hinput
    exact h (.inl hf)
  case sumNoOverflow =>
    obtain ⟨c', -, ⟨⟩⟩ := bind_eq_ok_iff.1 hinput
    exact h (.inr hf)
  case countStar => cases hinput
  all_goals
    obtain ⟨c', -, ⟨⟩⟩ := bind_eq_ok_iff.1 hinput

theorem kept_iff_of_describes (h : Describes (some aggr) spec) :
    aggr.Kept P schema batches ↔ spec.Kept P schema batches := by
  obtain ⟨_, ⟨⟩, hinput⟩ := h
  constructor
  · exact fun hkept => hkept _ _ _ hinput
  · intro hkept kind c returnType hinput'
    cases hinput.symm.trans hinput'
    exact hkept

theorem forall_kept_iff {specs : List AggregateSpec} (h : List.Forall₂ Describes aggregates specs) :
    (∀ aggr, some aggr ∈ aggregates → aggr.Kept P schema batches) ↔
      ∀ spec ∈ specs, spec.Kept P schema batches := by
  induction h with
  | nil => simp
  | @cons aggregate spec aggregates specs hd _ ih =>
    obtain ⟨aggr, rfl, hinput⟩ := id hd
    simp only [mem_cons, Option.some.injEq, forall_eq_or_imp, ih, kept_iff_of_describes hd]

theorem forall₂_result_iff {specs : List AggregateSpec} {outs : List (Output V)}
    (hagree : ∀ spec ∈ specs, CutAgrees P schema batches spec (spec.Kept P schema batches))
    (h : List.Forall₂ (fun spec o => spec.result P schema [batches.flatten] = .ok o) specs outs) :
    List.Forall₂ (fun spec o => spec.result P schema batches = .ok o) specs outs ↔
      ∀ spec ∈ specs, spec.Kept P schema batches := by
  induction h with
  | nil => simp
  | @cons spec o specs outs ho _ ih =>
    rw [forall₂_cons, forall_mem_cons, (hagree spec (by simp)).same_iff o ho,
      ih fun spec hspec => hagree spec (.tail _ hspec)]

/-- **Cuts.** Where the aggregation of the whole input returns, the aggregation of a cut returns the
same exactly if every aggregate is kept. Where it does not return, no cut does. -/
theorem ungroupedAggregate_cut (P : Cudf V) (schema : List DataType)
    (aggregates : List (Option UngroupedNode)) (batches : List (List (Row V)))
    (hbatches : batches ≠ []) (hbound : ∀ aggr, some aggr ∈ aggregates → aggr.SumBound) :
    (∀ out, ungroupedAggregate P aggregates schema [batches.flatten] = .ok out →
      (ungroupedAggregate P aggregates schema batches = .ok out ↔
        ∀ aggr, some aggr ∈ aggregates → aggr.Kept P schema batches)) ∧
    ((∀ out, ungroupedAggregate P aggregates schema [batches.flatten] ≠ .ok out) →
      ∀ out, ungroupedAggregate P aggregates schema batches ≠ .ok out) := by
  rcases eq_or_ne aggregates [] with rfl | haggs
  · have hnone (bs : List (List (Row V))) : ungroupedAggregate P [] schema bs = .ok [] := rfl
    simp [hnone]
  have hagree {layout : AggregateLayout} (hbuild : buildAggregateLayout aggregates = .ok layout)
      (spec : AggregateSpec) (hspec : spec ∈ layout.aggregates) :
      CutAgrees P schema batches spec (spec.Kept P schema batches) := by
    refine cutAgrees_kept hbatches fun hsum => ?_
    obtain ⟨aggregate, hmem, aggr, rfl, hinput⟩ :=
      exists_of_mem_forall₂ (laid_of_buildAggregateLayout hbuild).describes hspec
    exact (hbound aggr hmem).sumType (hsum ▸ hinput)
  constructor
  · intro out hout
    obtain ⟨layout, outs, hbuild, hwhole, rfl⟩ :=
      (ungroupedAggregate_eq_ok_iff haggs (by simp)).1 hout
    rw [forall_kept_iff (laid_of_buildAggregateLayout hbuild).describes,
      ← forall₂_result_iff (hagree hbuild) (mapM_eq_ok_iff.1 hwhole), ← mapM_eq_ok_iff,
      ungroupedAggregate_eq_ok_iff haggs hbatches]
    constructor
    · rintro ⟨layout', outs', hbuild', hcut, heq⟩
      cases hbuild.symm.trans hbuild'
      cases heq
      exact hcut
    · exact fun hcut => ⟨layout, outs, hbuild, hcut, rfl⟩
  · intro hnever out hout
    obtain ⟨layout, outs, hbuild, hcut, -⟩ :=
      (ungroupedAggregate_eq_ok_iff haggs hbatches).1 hout
    obtain ⟨outs', hwhole⟩ : ∃ outs',
        layout.aggregates.mapM (fun spec => spec.result P schema [batches.flatten]) = .ok outs' := by
      refine exists_mapM_eq_ok_iff.2 fun spec hspec => ?_
      obtain ⟨o, ho⟩ := exists_mapM_eq_ok_iff.1 ⟨outs, hcut⟩ spec hspec
      exact (hagree hbuild spec hspec).whole_of_cut o ho
    exact hnever _
      ((ungroupedAggregate_eq_ok_iff haggs (by simp)).2 ⟨layout, outs', hbuild, hwhole, rfl⟩)

def intCudf : Cudf Int := Payload.reference {
  toInt := id
  ofInt := id
  toInt_ofInt _ := rfl
  floatSum _ out vs := if out = .float32 ∨ out = .float64 then vs.sum else wrap out vs.sum
  floatSum_singleton _ _ h := by simp [h]
  floatSum_eq_ofInt _ _ vs h h' := ⟨vs.sum, by simp [h, h']⟩
  stale := 0 }

def nodeOf (function : AggregateId) (returnType : TypeId) : UngroupedNode :=
  ⟨⟨function, [.reference 0], false⟩, .make returnType⟩

/-- The SUM of an INTEGER column and its first value, a NULL. The second batch is empty. -/
theorem sum_and_first_of_three_batches :
    ungroupedAggregate intCudf [some (nodeOf .sum .bigint), some (nodeOf .first .integer)]
        [.make .int32] [[[none], [some 2]], [], [[some 3]]] =
      .ok [[.column ⟨.make .int64, some 5⟩, .column ⟨.make .int32, none⟩]] := by
  refine ((ungroupedAggregate_cut intCudf [.make .int32] _ [[[none], [some 2]], [], [[some 3]]]
    (by simp) ?_).1 _ rfl).2 ?_
  · simp [nodeOf, UngroupedNode.SumBound, SumType, LogicalType.make]
  · intro aggr haggr kind c returnType hinput type htype
    obtain rfl | rfl : aggr = nodeOf .sum .bigint ∨ aggr = nodeOf .first .integer := by
      simpa using haggr
    · cases hinput
      cases htype
      intro out hout hfloat
      cases hout
      exact absurd hfloat (by decide)
    · cases hinput
      cases htype
      exact .inl (by decide)

/-- The empty batch comes first, so that its NULL is the first value. -/
theorem first_of_empty_batch :
    ungroupedAggregate intCudf [some (nodeOf .first .integer)] [.make .int32] [[[some 5]]] =
        .ok [[.column ⟨.make .int32, some 5⟩]] ∧
      ungroupedAggregate intCudf [some (nodeOf .first .integer)] [.make .int32] [[], [[some 5]]] =
        .ok [[.column ⟨.make .int32, none⟩]] := ⟨rfl, rfl⟩

end Cut

end Sirius.Aggregate
