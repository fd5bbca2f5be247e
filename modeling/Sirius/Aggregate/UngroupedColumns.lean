import Mathlib.Algebra.BigOperators.Ring.Finset
import Sirius.Aggregate.UngroupedMerge

/-!
# Partial columns

Merging the partial sums of integers and decimals gives the sum of the whole, since both wrap around in
the same type (`Summable.sum_partialSums`). The merge of a partial column is a reduction of its values,
and a single value is passed on unchanged.
-/

namespace Sirius.Aggregate

open Lib List

open Sirius.Expression (DataType)

/-! ## Sums -/

section Sums

variable {V : Type} {P : Payload V} {type input out : DataType}

/-- The types of partial sums that the merge keeps. -/
def Summable (type : DataType) : Prop := isFloat type ∨ isDecimal type ∨ type.id = .int64

section

variable (h : Summable type)

include h

theorem Summable.sumOutputType : sumOutputType type = type := by
  obtain ⟨id, scale⟩ := type
  cases id <;> simp_all [Summable, isFloat, isDecimal, Aggregate.sumOutputType]

theorem Summable.supportsSum : supportsSum type type = true := by
  obtain ⟨id, scale⟩ := type
  cases id <;> simp_all [Summable, isFloat, isDecimal, Aggregate.supportsSum, isNumeric]

theorem Summable.wrap_add_wrap (hf : isFloat type = false) (m n : Int) :
    wrap type.id (wrap type.id m + n) = wrap type.id (m + n) := by
  obtain ⟨id, scale⟩ := type
  cases id <;> simp_all [Summable, isFloat, isDecimal, wrap]

theorem Summable.wrap_wrap (hf : isFloat type = false) (n : Int) :
    wrap type.id (wrap type.id n) = wrap type.id n := by
  simpa using h.wrap_add_wrap hf n 0

theorem Summable.wrap_sum (hf : isFloat type = false) (ns : List Int) :
    wrap type.id (ns.map (wrap type.id)).sum = wrap type.id ns.sum := by
  induction ns with
  | nil => rfl
  | cons n ns ih =>
    rw [map_cons, sum_cons, sum_cons, h.wrap_add_wrap hf, add_comm,
      ← h.wrap_add_wrap hf, ih, h.wrap_add_wrap hf, add_comm]

end

/-- A partial sum is a number of its type. -/
theorem Summable.sum_singleton (h : Summable out) (vs : List V) :
    P.sum out out [P.sum input out vs] = P.sum input out vs := by
  by_cases hf : isFloat out
  · rw [Payload.sum, if_pos (by simp [hf])]
    exact P.floatSum_singleton _ _ (by simpa [isFloat] using hf)
  · rw [Bool.not_eq_true] at hf
    have hnum : ∃ n, P.sum input out vs = P.ofInt (wrap out.id n) := by
      unfold Payload.sum
      split
      · exact P.floatSum_eq_ofInt _ _ _ (by rintro heq; simp [isFloat, heq] at hf)
          (by rintro heq; simp [isFloat, heq] at hf)
      · exact ⟨_, rfl⟩
    obtain ⟨n, hn⟩ := hnum
    rw [hn, Payload.sum, if_neg (by simp [hf])]
    simp [P.toInt_ofInt, h.wrap_wrap hf]

theorem sumOf_of_nil {vs : List (Option V)} (h : vs.reduceOption = []) :
    P.sumOf input out vs = none := if_pos h

theorem sumOf_of_ne_nil {vs : List (Option V)} (h : vs.reduceOption ≠ []) :
    P.sumOf input out vs = some (P.sum input out vs.reduceOption) := if_neg h

theorem Summable.sumOf_singleton (h : Summable out) (vs : List (Option V)) :
    P.sumOf out out [P.sumOf input out vs] = P.sumOf input out vs := by
  by_cases hvs : vs.reduceOption = []
  · rw [sumOf_of_nil hvs]
    exact sumOf_of_nil rfl
  · have hone : [some (P.sum input out vs.reduceOption)].reduceOption ≠ [] := cons_ne_nil _ _
    rw [sumOf_of_ne_nil hvs, sumOf_of_ne_nil hone]
    exact congrArg some (h.sum_singleton _)

variable (P) in
def partialSums (input out : DataType) (parts : List (List (Option V))) : List V :=
  (parts.map (P.sumOf input out)).reduceOption

theorem partialSums_cons (part : List (Option V)) (parts : List (List (Option V))) :
    partialSums P input out (part :: parts) =
      if part.reduceOption = [] then partialSums P input out parts
      else P.sum input out part.reduceOption :: partialSums P input out parts := by
  unfold partialSums
  rw [map_cons]
  split
  next h =>
    rw [sumOf_of_nil h, reduceOption_cons_of_none]
  next h =>
    rw [sumOf_of_ne_nil h, reduceOption_cons_of_some]

theorem partialSums_eq_nil_iff (input out : DataType) (parts : List (List (Option V))) :
    partialSums P input out parts = [] ↔ parts.flatten.reduceOption = [] := by
  induction parts with
  | nil => rfl
  | cons part parts ih =>
    rw [partialSums_cons, flatten_cons, reduceOption_append, append_eq_nil_iff, ← ih]
    split <;> simp_all

theorem Summable.sum_partialSums (h : Summable out) (hin : isFloat input = false)
    (hout : isFloat out = false) (parts : List (List (Option V))) :
    P.sum out out (partialSums P input out parts) = P.sum input out parts.flatten.reduceOption := by
  have hsum (i : DataType) (hi : isFloat i = false) (vs : List V) :
      P.sum i out vs = P.ofInt (wrap out.id (vs.map P.toInt).sum) := by
    rw [Payload.sum, if_neg (by simp [hi, hout])]
  rw [hsum _ hin, hsum _ hout]
  congr 1
  induction parts with
  | nil => rfl
  | cons part parts ih =>
    rw [flatten_cons, reduceOption_append, map_append, sum_append,
      partialSums_cons]
    split
    next hpart =>
      rw [ih, hpart, map_nil, sum_nil, zero_add]
    · rw [map_cons, sum_cons, hsum _ hin, P.toInt_ofInt, h.wrap_add_wrap hout, add_comm,
        ← h.wrap_add_wrap hout, ih, h.wrap_add_wrap hout, add_comm]

end Sums

/-! ## Merging one column -/

section Columns

variable {V : Type} [LinearOrder V] {P : Cudf V} {type : DataType} {ι : Type} {keys : List ι}

variable (P) in
def mergedScalar (kind : Reduction) (scalars : List (Scalar V)) : Except Failure (Scalar V) :=
  match scalars with
  | [scalar] => .ok scalar
  | _ => do mergeColumn P kind (← P.concatenate scalars)

theorem ok_bind {ε α β : Type} (a : α) (f : α → Except ε β) : (Except.ok a >>= f) = f a := rfl

theorem concatenate_map (hkeys : keys ≠ []) (v : ι → Option V) :
    P.concatenate (keys.map fun b => ⟨type, v b⟩) = .ok ⟨type, keys.map v⟩ :=
  (P.concatenate_iff _ _).2 ⟨by simpa using hkeys, by simp, by simp⟩

omit [LinearOrder V] in
theorem partialColumn_map (keys : List ι) {F : ι → List (Scalar V)} {f : ι → Scalar V} {j : Nat}
    (h : ∀ b, (F b)[j]? = some (f b)) : partialColumn (keys.map F) j = .ok (keys.map f) := by
  unfold partialColumn
  rw [mapM_map]
  exact mapM_eq_ok fun b _ => by simp [h b]

section

variable (hkeys : keys ≠ [])

include hkeys

theorem merged_eq {spec : AggregateSpec} {fs : List (ι → Scalar V)}
    (hlength : spec.kind.mergeKinds.length = fs.length) :
    spec.merged P (keys.map fun b => fs.map (· b)) =
      (spec.kind.mergeKinds.zip fs).mapM fun kf => mergedScalar P kf.1 (keys.map kf.2) := by
  match keys with
  | [b] =>
    have hfs : (spec.kind.mergeKinds.zip fs).map Prod.snd = fs := map_snd_zip hlength.ge
    show Except.ok (fs.map (· b)) = _
    rw [← hfs, map_map, hfs]
    exact (mapM_eq_ok fun _ _ => rfl).symm
  | b :: b' :: keys =>
    show spec.mergeColumns P _ = mapM (fun kf : Reduction × (ι → Scalar V) =>
      P.concatenate ((b :: b' :: keys).map kf.2) >>= mergeColumn P kf.1) _
    generalize b :: b' :: keys = keys
    have hfrom : ∀ (kinds : List Reduction) (n : Nat), n + kinds.length = fs.length →
        ((kinds.zipIdx n).mapM fun kc => do
          mergeColumn P kc.1 (← P.concatenate (← partialColumn (keys.map fun b => fs.map (· b)) kc.2))) =
        (kinds.zip (fs.drop n)).mapM fun kf => P.concatenate (keys.map kf.2) >>= mergeColumn P kf.1 := by
      intro kinds
      induction kinds with
      | nil => simp
      | cons kind kinds ih =>
        intro n hn
        rw [length_cons] at hn
        have hlt : n < fs.length := by omega
        rw [zipIdx_cons, drop_eq_getElem_cons hlt, zip_cons_cons, mapM_cons, mapM_cons,
          ih _ (by omega), partialColumn_map keys (f := fs[n]) fun b => by simp [hlt]]
        rfl
    exact hfrom _ 0 (by rw [hlength, Nat.zero_add])

theorem mergedScalar_sum (h : Summable type) {v : ι → Option V}
    (hv : ∀ b, P.sumOf type type [v b] = v b) :
    mergedScalar P .sum (keys.map fun b => ⟨type, v b⟩) =
      .ok ⟨type, P.sumOf type type (keys.map v)⟩ := by
  match keys with
  | [b] => exact congrArg (fun x => Except.ok (Scalar.mk type x)) (hv b).symm
  | b :: b' :: keys =>
    show (P.concatenate _ >>= mergeColumn P .sum) = _
    rw [concatenate_map (cons_ne_nil _ _)]
    show mergeColumn P .sum _ = _
    rw [mergeColumn, if_pos rfl, h.sumOutputType]
    exact (P.reduce_sum_iff _ _ _).2 ⟨h.supportsSum, rfl⟩

theorem mergedScalar_fold {kind : Reduction} {fold : List (Option V) → Option V} (hkind : kind ≠ .sum)
    (hone : ∀ x, fold [x] = x)
    (hreduce : ∀ vs : List (Option V), P.reduce ⟨type, vs⟩ kind type = .ok ⟨type, fold vs⟩) (v : ι → Option V) :
    mergedScalar P kind (keys.map fun b => ⟨type, v b⟩) = .ok ⟨type, fold (keys.map v)⟩ := by
  match keys with
  | [b] => simp [mergedScalar, hone]
  | b :: b' :: keys =>
    show (P.concatenate _ >>= mergeColumn P kind) = _
    rw [concatenate_map (cons_ne_nil _ _)]
    show mergeColumn P kind _ = _
    rw [mergeColumn, if_neg hkind, hreduce]

end

theorem mergedScalar_first (v : ι → Option V) (b : ι) (keys : List ι) :
    mergedScalar P (.nthElement 0) ((b :: keys).map fun b => ⟨type, v b⟩) = .ok ⟨type, v b⟩ := by
  match keys with
  | [] => rfl
  | b' :: keys =>
    show (P.concatenate _ >>= mergeColumn P (.nthElement 0)) = _
    rw [concatenate_map (cons_ne_nil _ _)]
    exact (P.reduce_nthElement_iff _ _ _ _).2 ⟨_, rfl, rfl⟩

end Columns

end Sirius.Aggregate
