import Sirius.Aggregate.UngroupedCut

/-!
# AVG and NULLs

The partial sums of an AVG leave out NULLs, but its count is the number of all rows, and
`make_avg_column` does not look at the validity of the sum. So the result is the average of SQL exactly
if there is a row and no row is NULL, and the sum fits the type it is taken in (`avg_isAverage_iff`),
also in a list of aggregates (`avg_isAverage_iff_of_getElem?`). Unsigned integers have no AVG at all.
-/

namespace Sirius.Aggregate

open Lib
open Sirius.Sort (Row)
open Sirius.Expression (DataType LogicalType)

variable {V : Type} [LinearOrder V]

def isSigned (type : DataType) : Bool := type.id ∈ [.int8, .int16, .int32, .int64]

def isUnsigned (type : DataType) : Bool := type.id ∈ [.uint8, .uint16, .uint32, .uint64]

def avgNode (c : Nat) : UngroupedNode := ⟨⟨.avg, [.reference c], false⟩, .make .double⟩

def Output.IsNull (o : Output V) : Prop := ∃ type, o = .column ⟨type, none⟩

def Output.operands (P : Payload V) : Output V → Option (Int × Int)
  | .quotient _ _ sum count => some (P.toInt sum, count)
  | _ => none

/-- The AVG of SQL: the sum divided by the number of the values that are not NULL. -/
structure IsAverage (P : Payload V) (vs : List (Option V)) (o : Output V) : Prop where
  isNull_iff : o.IsNull ↔ vs.reduceOption = []
  operands_eq : vs.reduceOption ≠ [] →
    o.operands P = some ((vs.reduceOption.map P.toInt).sum, (vs.reduceOption.length : Int))

/-- There are values, as many as rows, and their sum fits the type it is taken in. -/
def AvgExact (P : Payload V) (type : DataType) (vs : List (Option V)) : Prop :=
  vs.reduceOption ≠ [] ∧ wrap .int64 vs.length = vs.reduceOption.length ∧
    wrap (avgType type).id (vs.reduceOption.map P.toInt).sum = (vs.reduceOption.map P.toInt).sum

variable {P : Payload V} {schema : List DataType} {type : DataType} {c : Nat}
  {batches : List (List (Row V))}

theorem summable_avgType_iff (h : isSigned type ∨ isUnsigned type ∨ isDecimal type) :
    Summable (avgType type) ↔ isUnsigned type = false := by
  obtain ⟨id, scale⟩ := type
  cases id <;> simp_all [isSigned, isUnsigned, avgType, widenForAvg, isDecimal, Summable, isFloat,
    DataType.make]

theorem isFloat_avgType (h : isSigned type ∨ isUnsigned type ∨ isDecimal type) :
    isFloat (avgType type) = false := by
  obtain ⟨id, scale⟩ := type
  cases id <;> simp_all [isSigned, isUnsigned, avgType, widenForAvg, isDecimal, isFloat,
    DataType.make]

omit [LinearOrder V] in
theorem not_isNull_average (returnType : LogicalType) (sum : Option V) (n : Nat) :
    ¬(average P returnType type sum n).IsNull := by
  unfold average Output.IsNull
  split <;> simp

omit [LinearOrder V] in
/-- The quotient of a sum in its type and the number of rows. -/
theorem isAverage_average_iff {returnType : LogicalType} {vs : List (Option V)} {sum : Int} {n : Nat}
    (hsum : vs.reduceOption ≠ [] → (vs.reduceOption.map P.toInt).sum = sum) {x : Option V}
    (hx : vs.reduceOption ≠ [] → x = some (P.ofInt (wrap type.id sum))) :
    IsAverage P vs (average P returnType type x n) ↔
      vs.reduceOption ≠ [] ∧ wrap .int64 n = vs.reduceOption.length ∧ wrap type.id sum = sum := by
  constructor
  · rintro ⟨hnull, hoperands⟩
    have hne : vs.reduceOption ≠ [] := fun h => not_isNull_average _ _ _ (hnull.2 h)
    have hop := hoperands hne
    rw [hsum hne, hx hne, average] at hop
    split at hop
    · cases hop
    · simp only [Output.operands, Option.getD_some, P.toInt_ofInt, Option.some.injEq,
        Prod.mk.injEq] at hop
      exact ⟨hne, hop.2, hop.1⟩
  · rintro ⟨hne, hn, hfits⟩
    have hpos : wrap .int64 n ≠ 0 := by
      rw [hn]
      simpa using hne
    refine ⟨iff_of_false (not_isNull_average _ _ _) hne, fun _ => ?_⟩
    rw [hsum hne, hx hne, average, if_neg hpos, hn]
    simp [Output.operands, P.toInt_ofInt, hfits]

variable {P : Cudf V}

def avgSpec (c : Nat) : AggregateSpec := ⟨.avg, c, .make .double, 0, 1⟩

theorem ungroupedAggregate_avg_iff (hbatches : batches ≠ []) {o : Output V} :
    ungroupedAggregate P [some (avgNode c)] schema batches = .ok [[o]] ↔
      (avgSpec c).result P schema batches = .ok o := by
  have hbuild : buildAggregateLayout [some (avgNode c)] =
      .ok ⟨[avgSpec c], [.sum, .sum], true⟩ := rfl
  rw [ungroupedAggregate_eq_ok_iff (by simp) hbatches]
  simp only [hbuild, mapM_eq_ok_iff]
  constructor
  · rintro ⟨_, outs, ⟨⟩, houts, ⟨⟩⟩
    exact (List.forall₂_cons.1 houts).1
  · exact fun ho => ⟨_, [o], rfl, .cons ho .nil, rfl⟩

section

variable {out : DataType} {returnType : LogicalType} (htype : schema[c]? = some type)
  (hnum : isSigned type ∨ isUnsigned type ∨ isDecimal type) (hout : toCudfType returnType = .ok out)
  (hbatches : batches ≠ [])

include htype hnum hout hbatches

/-- A result of an AVG is the one of SQL exactly if there is a row, no row is NULL and the sum fits. -/
theorem isAverage_iff_of_result {sumIdx countIdx : Nat} {o : Output V}
    (ho : AggregateSpec.result P ⟨.avg, c, returnType, sumIdx, countIdx⟩ schema batches = .ok o) :
    Summable (avgType type) ∧
      (IsAverage P (values c batches.flatten) o ↔ AvgExact P type (values c batches.flatten)) := by
  have hsum : Summable (avgType type) := by
    by_contra hsum
    exact result_avg_ne_ok htype hout hbatches rfl hsum ho
  have hfloat := isFloat_avgType hnum
  have hparts := (sumOf_parts_iff (P := P.toPayload) (avgType type, avgType type) hsum
    (batches.map (values c))).2 fun hf => absurd hf (by simp [hfloat])
  rw [List.map_map, ← values_flatten] at hparts
  obtain ⟨-, rfl⟩ := (result_avg_iff_of_summable htype hout hbatches rfl hsum).1 ho
  refine ⟨hsum, ?_⟩
  rw [AvgExact, length_values, ← isAverage_average_iff (fun _ => rfl) fun hne => ?_]
  refine hparts.trans ?_
  rw [sumOf_of_ne_nil hne, Payload.sum, if_neg (by simp [hfloat])]

/-- **AVG in a list of aggregates** that returns, with any type of the result. -/
theorem avg_isAverage_iff_of_getElem? {aggregates : List (Option UngroupedNode)} {j : Nat}
    (hj : aggregates[j]? = some (some ⟨⟨.avg, [.reference c], false⟩, returnType⟩))
    {outs : List (Output V)} (h : ungroupedAggregate P aggregates schema batches = .ok [outs]) :
    ∃ o, outs[j]? = some o ∧
      (IsAverage P (values c batches.flatten) o ↔ AvgExact P type (values c batches.flatten)) := by
  have haggs : aggregates ≠ [] := by
    rintro rfl
    cases hj
  obtain ⟨layout, _, hbuild, houts, ⟨⟩⟩ := (ungroupedAggregate_eq_ok_iff haggs hbatches).1 h
  obtain ⟨⟨kind, _, _, _, _⟩, hspec, _, ⟨⟩, ⟨⟩⟩ :=
    forall₂_getElem? (laid_of_buildAggregateLayout hbuild).describes.flip hj
  obtain ⟨o, ho, hres⟩ := forall₂_getElem? (mapM_eq_ok_iff.1 houts).flip hspec
  exact ⟨o, ho, (isAverage_iff_of_result htype hnum hout hbatches hres).2⟩

end

/-- **AVG.** The sum and the count that are divided are those of the values that are not NULL, and the
result is NULL exactly without such values, if and only if the column is not unsigned, has a row and
only rows that are not NULL, and the sum fits its type. -/
theorem avg_isAverage_iff (P : Cudf V) (schema : List DataType) (c : Nat) (type : DataType)
    (htype : schema[c]? = some type) (hnum : isSigned type ∨ isUnsigned type ∨ isDecimal type)
    (batches : List (List (Row V))) (hbatches : batches ≠ []) :
    (∃ o, ungroupedAggregate P [some (avgNode c)] schema batches = .ok [[o]] ∧
        IsAverage P (values c batches.flatten) o) ↔
      isUnsigned type = false ∧ (values c batches.flatten).reduceOption ≠ [] ∧
        wrap .int64 batches.flatten.length = (values c batches.flatten).reduceOption.length ∧
        wrap (avgType type).id ((values c batches.flatten).reduceOption.map P.toInt).sum =
          ((values c batches.flatten).reduceOption.map P.toInt).sum := by
  simp only [ungroupedAggregate_avg_iff hbatches]
  rw [← summable_avgType_iff hnum, ← length_values c]
  constructor
  · rintro ⟨o, ho, havg⟩
    obtain ⟨hsum, hiff⟩ := isAverage_iff_of_result htype hnum rfl hbatches ho
    exact ⟨hsum, hiff.1 havg⟩
  · rintro ⟨hsum, hexact⟩
    have ho : (avgSpec c).result P schema batches = .ok _ :=
      (result_avg_iff_of_summable htype rfl hbatches rfl hsum).2 ⟨rfl, rfl⟩
    exact ⟨_, ho, (isAverage_iff_of_result htype hnum rfl hbatches ho).2.2 hexact⟩

theorem avg_isAverage_two_batches :
    ∃ o, ungroupedAggregate intCudf [some (avgNode 0)] [.make .int32] [[[some 2]], [[some 5]]] =
        .ok [[o]] ∧ IsAverage intCudf [some 2, some 5] o :=
  (avg_isAverage_iff intCudf [.make .int32] 0 (.make .int32) rfl (by decide)
    [[[some 2]], [[some 5]]] (by simp)).2 (by decide)

/-- The row that is NULL is counted, and without values the result is not NULL. -/
theorem avg_counts_nulls :
    ungroupedAggregate intCudf [some (avgNode 0)] [.make .int32] [[[some 5], [none]]] =
        .ok [[.quotient (.make .double) (.make .int64) 5 2]] ∧
      ungroupedAggregate intCudf [some (avgNode 0)] [.make .int32] [[[none]]] =
        .ok [[.quotient (.make .double) (.make .int64) intCudf.stale 1]] := ⟨rfl, rfl⟩

end Sirius.Aggregate
