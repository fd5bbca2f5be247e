import Sirius.Iceberg.Deletes
import Sirius.Lib.Slices

/-!
# What the delete filters do to a batch

The positional filter removes the rows whose number in the file is deleted
(`positionalApply_rows`), a filter of equality deletes those whose key is deleted (`apply_rows`).
-/

namespace Sirius.Iceberg

open Lib List

variable {V : Type}

/-! ## Positional deletes -/

section Positional

variable {positions : List Int}

namespace IcebergDeleteData

theorem drop_lowerBound (v : Int) :
    positions.drop (lowerBound positions v) = positions.dropWhile (· < v) :=
  calc positions.drop (lowerBound positions v)
      = (positions.takeWhile (· < v) ++ positions.dropWhile (· < v)).drop (lowerBound positions v) := by
        rw [takeWhile_append_dropWhile]
    _ = positions.dropWhile (· < v) := drop_left

theorem take_lowerBound (v : Int) :
    positions.take (lowerBound positions v) = positions.takeWhile (· < v) :=
  (prefix_iff_eq_take.1 <| takeWhile_prefix _).symm

theorem mem_window (h : positions.Pairwise (· ≤ ·)) {first last p : Int} :
    p ∈ (positions.take (lowerBound positions first +
        lowerBound (positions.drop (lowerBound positions first)) last)).drop
          (lowerBound positions first) ↔
      p ∈ positions ∧ first ≤ p ∧ p < last := by
  have hcut {l : List Int} (hl : l.Pairwise (· ≤ ·)) (v : Int) :=
    takeWhile_dropWhile_eq_filter (p := (· < v)) (hl.imp fun hle hlt => by
      simpa using hle.trans_lt (by simpa using hlt))
  rw [drop_take, Nat.add_sub_cancel_left, take_lowerBound, drop_lowerBound, (hcut h first).2,
    (hcut (h.filter _) last).1]
  simp only [mem_filter, decide_eq_true_eq, Bool.not_eq_true', decide_eq_false_iff_not, not_lt, and_assoc]

theorem keepMask_eq {ps : List Int} {first n : Nat} (hrange : ∀ p ∈ ps, (first : Int) ≤ p) :
    keepMask ps first n = (range' first n).map fun i : Nat => decide ((i : Int) ∉ ps) := by
  refine ext_getElem? fun i => ?_
  rw [keepMask, getElem?_foldl_set]
  have hiff : (∃ p ∈ ps, (p - (first : Int)).toNat = i) ↔ ((first + i : Nat) : Int) ∈ ps := by
    constructor
    · rintro ⟨p, hp, rfl⟩
      have := hrange p hp
      rwa [show ((first + (p - (first : Int)).toNat : Nat) : Int) = p by omega]
    · exact fun hmem => ⟨_, hmem, by omega⟩
  rw [if_congr hiff rfl rfl, getElem?_replicate, getElem?_map]
  by_cases hi : i < n
  · have hr : (range' first n)[i]? = some (first + i) := by
      rw [getElem?_range' hi, Nat.one_mul]
    rw [hr, if_pos hi]
    by_cases hmem : ((first + i : Nat) : Int) ∈ ps
    · rw [if_pos hmem, Option.map_some, Option.map_some, decide_eq_false (not_not.2 hmem)]
    · rw [if_neg hmem, Option.map_some, decide_eq_true hmem]
  · have hr : (range' first n)[i]? = none :=
      getElem?_eq_none (by rw [length_range']; omega)
    rw [hr, if_neg hi, Option.map_none, ite_self, Option.map_none]

variable (dd : IcebergDeleteData V)

@[simp]
theorem positionalApply_numColumns (t : Table V) (path : String) (first : Int) :
    (dd.positionalApply t path first).numColumns = t.numColumns := by
  rw [positionalApply]
  split
  · rfl
  · split
    · rfl
    · dsimp only
      split <;> rfl

/-- **Positional deletes.** The filter removes the rows of a batch whose number in the file is
deleted. -/
theorem positionalApply_rows (t : Table V) (path : String) (first : Nat) :
    (dd.positionalApply t path first).rows =
      filterIdx (fun i _ => decide ((i : Int) ∉ dd.positions path)) first t.rows := by
  rw [positionalApply, positions]
  cases hlookup : dd.positionalDeletes.lookup path with
  | none => exact (filterIdx_eq_self fun _ _ _ _ => by simp).symm
  | some ps =>
    have hsorted : ps.Pairwise (· ≤ ·) := by
      obtain ⟨l, l', hl, -⟩ := lookup_eq_some_iff.1 hlookup
      exact dd.sorted (path, ps) (by rw [hl]; simp)
    have hwindow : ∀ {p : Int}, _ ↔ p ∈ ps ∧ (first : Int) ≤ p ∧ p < first + t.rows.length :=
      mem_window hsorted
    simp only [Option.getD_some]
    generalize lowerBound ps first = lo at hwindow ⊢
    generalize lo + lowerBound (ps.drop lo) (first + t.rows.length) = hi at hwindow ⊢
    split
    next hempty =>
      exact (filterIdx_eq_self fun _ _ _ _ => by simp [isEmpty_iff.1 hempty]).symm
    · split
      next hlohi =>
        refine (filterIdx_eq_self fun i _ hi hlt => ?_).symm
        have hnone : (i : Int) ∉ (ps.take lo).drop lo := by simp
        rw [← hlohi] at hwindow
        exact decide_eq_true fun hmem => hnone (hwindow.2 ⟨hmem, by omega, by omega⟩)
      · rw [Table.applyBooleanMask, keepMask_eq fun p hp => (hwindow.1 hp).2.1]
        refine (applyMask_range _ _ _).trans (filterIdx_congr fun i _ hi hlt => ?_)
        refine decide_eq_decide.2 (not_congr (hwindow.trans ?_))
        exact and_iff_left ⟨by omega, by omega⟩

end IcebergDeleteData

end Positional

/-! ## Equality deletes -/

section Equality

namespace IcebergDeleteData

variable [DecidableEq V] (dd : IcebergDeleteData V)

def passes (path : String) (r : List (Option V)) : Filter → Bool
  | .positional => true
  | .equality groupIndex dataKeyIndices =>
    match dd.equalityDeleteGroups[groupIndex]? with
    | some g => dd.skips g path || !g.deleteTable.contains (dataKeyIndices.map fun i => r.getD i none)
    | none => true

theorem passes_equality_iff {path : String} {r : List (Option V)} {gi : Nat} {js : List Nat}
    {g : EqualityDeleteGroup V} (hgi : dd.equalityDeleteGroups[gi]? = some g) :
    dd.passes path r (.equality gi js) = true ↔
      (dd.Applies g path → (js.map fun i => r.getD i none) ∉ g.deleteTable) := by
  rw [passes, ← dd.skips_eq_false_iff]
  simp only [hgi, contains_eq_mem]
  cases dd.skips g path with
  | true => simp only [Bool.true_or, Bool.true_eq_false, false_imp_iff]
  | false => simp only [Bool.false_or, Bool.not_eq_true', decide_eq_false_iff_not, true_imp_iff]

def Filter.Fits (numColumns : Nat) : Filter → Prop
  | .positional => False
  | .equality _ dataKeyIndices => ∀ i ∈ dataKeyIndices, i < numColumns

theorem makeAntiJoinMask_leftJoin (build probe : List (List (Option V))) :
    makeAntiJoinMask (leftJoin build probe) = probe.map fun key => !build.contains key := by
  rw [makeAntiJoinMask, leftJoin, map_map]
  refine map_congr_left fun key _ => ?_
  rw [Function.comp_apply, ← Option.not_isSome, findIdx?_isSome, contains_eq_any_beq]
  simp only [BEq.comm]

@[simp]
theorem apply_numColumns (t : Table V) (path : String) (first : Int) (f : Filter) :
    (dd.apply t path first f).numColumns = t.numColumns := by
  cases f with
  | positional => exact dd.positionalApply_numColumns t path first
  | equality gi js =>
    rw [apply]
    split
    · rw [equalityApply]
      split_ifs <;> rfl
    · rfl

/-- **Equality deletes.** The filter removes the rows of a batch whose key is deleted. -/
theorem apply_rows {t : Table V} {f : Filter} (hf : f.Fits t.numColumns) (path : String)
    (first : Int) :
    (dd.apply t path first f).rows = t.rows.filter fun r => dd.passes path r f := by
  cases f with
  | positional => cases hf
  | equality gi js =>
    rw [apply]
    cases hg : dd.equalityDeleteGroups[gi]? with
    | none => simp [passes, hg]
    | some g =>
      have hfits : js.any (t.numColumns ≤ ·) = false := by simpa [Filter.Fits] using hf
      simp only [passes, hg, equalityApply, hfits]
      split
      next hempty =>
        rw [isEmpty_iff.1 hempty, filter_nil]
      · split
        next hskips =>
          simp [hskips]
        next hskips =>
          simp only [Bool.false_eq_true, if_false, Table.applyBooleanMask, Bool.not_eq_true] at hskips ⊢
          rw [makeAntiJoinMask_leftJoin, Table.select, map_map, applyMask_map]
          simp [hskips, Function.comp_def]

theorem foldl_apply_numColumns (path : String) (first : Int) (fs : List Filter) (t : Table V) :
    (fs.foldl (fun t f => dd.apply t path first f) t).numColumns = t.numColumns := by
  induction fs generalizing t with
  | nil => rfl
  | cons f fs ih => rw [foldl_cons, ih, apply_numColumns]

theorem foldl_apply_rows (path : String) (first : Int) {fs : List Filter} {t : Table V}
    (hfs : ∀ f ∈ fs, f.Fits t.numColumns) :
    (fs.foldl (fun t f => dd.apply t path first f) t).rows =
      t.rows.filter fun r => fs.all (dd.passes path r) := by
  induction fs generalizing t with
  | nil => simp
  | cons f fs ih =>
    rw [foldl_cons, ih fun g hg => by rw [apply_numColumns]; exact hfs g (by simp [hg]),
      apply_rows dd (hfs f (by simp)), filter_filter]
    simp [Bool.and_comm]

end IcebergDeleteData

end Equality

end Sirius.Iceberg
