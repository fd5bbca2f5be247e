import Mathlib.Data.List.Dedup
import Mathlib.Data.List.Perm.Basic

/-!
# Grouping and decomposition

`Grouped key f l out` says that `out` is the result of grouping `l`: every key of `l` once, with the
value of `f` on its group. Groupings can be cut by a property of the keys, put together again, and
merged: if `f` can be computed from its values on parts, then merging the groupings of several lists
gives a grouping of all of them.

Values that are folds of a commutative operation can be computed from parts in this way.
-/

namespace Sirius.Lib

open List

variable {α κ β γ : Type*} [DecidableEq κ]

/-! ## Groups -/

/-- A way to list the keys that occur, each once. -/
structure DistinctKeys (κ : Type*) where
  run : List κ → List κ
  nodup (l : List κ) : (run l).Nodup
  mem_iff (l : List κ) (k : κ) : k ∈ run l ↔ k ∈ l

def DistinctKeys.dedup (κ : Type*) [DecidableEq κ] : DistinctKeys κ :=
  ⟨List.dedup, List.nodup_dedup, fun _ _ => List.mem_dedup⟩

def groupOf (key : α → κ) (k : κ) (l : List α) : List α := l.filter fun a => key a = k

def groupBy (d : DistinctKeys κ) (key : α → κ) (f : List α → β) (l : List α) : List (κ × β) :=
  (d.run (l.map key)).map fun k => (k, f (groupOf key k l))

structure Grouped (key : α → κ) (f : List α → β) (l : List α) (out : List (κ × β)) : Prop where
  nodup : (out.map Prod.fst).Nodup
  mem_iff : ∀ k b, (k, b) ∈ out ↔ k ∈ l.map key ∧ b = f (groupOf key k l)

variable {key : α → κ} {f : List α → β} {l l' : List α} {out : List (κ × β)}

theorem groupOf_ne_nil {k : κ} : groupOf key k l ≠ [] ↔ k ∈ l.map key := by
  simp [groupOf, filter_eq_nil_iff]

theorem groupOf_flatten (k : κ) (ls : List (List α)) :
    groupOf key k ls.flatten = (ls.map (groupOf key k)).flatten := filter_flatten

theorem groupOf_filter (k : κ) (p : κ → Bool) :
    groupOf key k (l.filter fun a => p (key a)) = if p k then groupOf key k l else [] := by
  rw [groupOf, filter_filter]
  split
  next hp =>
    refine filter_congr fun a _ => ?_
    by_cases h : key a = k
    · simp [h, hp]
    · simp [h]
  next hp =>
    rw [filter_eq_nil_iff]
    rintro a - h
    simp only [Bool.and_eq_true, decide_eq_true_eq] at h
    exact hp (h.1 ▸ h.2)

/-- The groups of all keys below a bound are the list, in another order. -/
theorem flatten_groupOf_range_perm {part : α → Nat} {n : Nat} (hpart : ∀ a ∈ l, part a < n) :
    ((range n).map fun i => groupOf part i l).flatten.Perm l := by
  classical
  have hcount (a : α) (n : Nat) : count a ((range n).map fun i => groupOf part i l).flatten =
      if part a < n then count a l else 0 := by
    induction n with
    | zero => simp
    | succ n ih =>
      have hlast : count a (groupOf part n l) = if part a = n then count a l else 0 := by
        split
        · exact count_filter (by simpa)
        · exact count_eq_zero.2 (by simp [groupOf, *])
      simp only [range_succ, map_append, flatten_append, count_append, ih, map_cons, map_nil,
        flatten_cons, flatten_nil, append_nil, hlast]
      split <;> split <;> split <;> omega
  refine perm_iff_count.2 fun a => ?_
  rw [hcount]
  split
  · rfl
  · exact (count_eq_zero.2 fun ha => absurd (hpart a ha) ‹_›).symm

theorem flatten_groupOf_perm {part : α → Nat} {pieces : List (List α)}
    (hpart : ∀ a ∈ l, part a < pieces.length)
    (h : ∀ (i : Nat) (piece : List α), pieces[i]? = some piece → piece.Perm (groupOf part i l)) :
    pieces.flatten.Perm l := by
  refine .trans (.flatten_congr (forall₂_iff_get.2 ⟨by simp, fun i hi _ => ?_⟩))
    (flatten_groupOf_range_perm hpart)
  simpa using h i _ (getElem?_eq_getElem hi)

theorem grouped_groupBy (d : DistinctKeys κ) (key : α → κ) (f : List α → β) (l : List α) :
    Grouped key f l (groupBy d key f l) where
  nodup := by
    rw [groupBy, map_map]
    exact (map_id' _).symm ▸ d.nodup _
  mem_iff k b := by
    rw [groupBy, mem_map, ← d.mem_iff]
    constructor
    · rintro ⟨_, hk, ⟨⟩⟩
      exact ⟨hk, rfl⟩
    · rintro ⟨hk, rfl⟩
      exact ⟨k, hk, rfl⟩

namespace Grouped

section

variable (h : Grouped key f l out)

include h

theorem congr {g : List α → β} (hfg : ∀ k ∈ l.map key, f (groupOf key k l) = g (groupOf key k l)) :
    Grouped key g l out where
  nodup := h.nodup
  mem_iff k b := by
    rw [h.mem_iff]
    refine and_congr_right fun hk => ?_
    rw [hfg k hk]

theorem eq_of {g : List α → β} (h' : Grouped key g l out) {k : κ} (hk : k ∈ l.map key) :
    f (groupOf key k l) = g (groupOf key k l) :=
  ((h'.mem_iff _ _).1 ((h.mem_iff _ _).2 ⟨hk, rfl⟩)).2

theorem perm (hl : l.Perm l') (hf : ∀ {a b : List α}, a.Perm b → f a = f b) :
    Grouped key f l' out where
  nodup := h.nodup
  mem_iff k b := by
    have hgroup : (groupOf key k l).Perm (groupOf key k l') := hl.filter _
    rw [h.mem_iff, (hl.map key).mem_iff, hf hgroup]

theorem map {g : β → γ} :
    Grouped key (fun group => g (f group)) l (out.map fun r => (r.1, g r.2)) where
  nodup := by
    rw [map_map]
    exact h.nodup
  mem_iff k c := by
    simp only [mem_map, Prod.mk.injEq, Prod.exists]
    constructor
    · rintro ⟨_, b, hb, rfl, rfl⟩
      obtain ⟨hk, rfl⟩ := (h.mem_iff _ _).1 hb
      exact ⟨by simpa using hk, rfl⟩
    · rintro ⟨hk, rfl⟩
      exact ⟨k, _, (h.mem_iff _ _).2 ⟨by simpa using hk, rfl⟩, rfl, rfl⟩

theorem filter (p : κ → Bool) :
    Grouped key f (l.filter fun a => p (key a)) (out.filter fun r => p r.1) where
  nodup := h.nodup.sublist (filter_sublist.map _)
  mem_iff k b := by
    rw [mem_filter, h.mem_iff, groupOf_filter]
    by_cases hp : p k
    · have hmem : k ∈ (l.filter fun a => p (key a)).map key ↔ k ∈ l.map key := by
        simp only [mem_map, mem_filter]
        constructor
        · rintro ⟨a, ⟨ha, -⟩, rfl⟩
          exact ⟨a, ha, rfl⟩
        · rintro ⟨a, ha, rfl⟩
          exact ⟨a, ⟨ha, hp⟩, rfl⟩
      simp [hp, ← hmem]
    · have hmem : k ∉ (l.filter fun a => p (key a)).map key := by
        simp only [mem_map, mem_filter, not_exists, not_and]
        rintro a ⟨-, ha⟩ rfl
        exact hp ha
      simp [hp, hmem]

theorem groupOf_fst (k : κ) :
    groupOf Prod.fst k out = if k ∈ l.map key then [(k, f (groupOf key k l))] else [] := by
  split
  next hk =>
    refine perm_singleton.1 ((perm_ext_iff_of_nodup ?_ (nodup_singleton _)).2 ?_)
    · exact (List.Nodup.of_map _ h.nodup).filter _
    · rintro ⟨k', b⟩
      simp only [groupOf, mem_filter, decide_eq_true_eq, mem_singleton, Prod.mk.injEq,
        h.mem_iff]
      constructor
      · rintro ⟨⟨-, rfl⟩, rfl⟩
        exact ⟨rfl, rfl⟩
      · rintro ⟨rfl, rfl⟩
        exact ⟨⟨hk, rfl⟩, rfl⟩
  next hk =>
    rw [groupOf, filter_eq_nil_iff]
    rintro ⟨k', b⟩ hb heq
    obtain rfl : k' = k := by simpa using heq
    exact hk ((h.mem_iff _ _).1 hb).1

end

theorem flatMap {n : Nat} {part : κ → Nat} {outs : Nat → List (κ × β)} (hpart : ∀ k, part k < n)
    (h : ∀ i < n, Grouped key f (l.filter fun a => part (key a) = i) (outs i)) :
    Grouped key f l ((range n).flatMap outs) := by
  have hentry (i) (hi : i < n) (k b) :
      (k, b) ∈ outs i ↔ part k = i ∧ k ∈ l.map key ∧ b = f (groupOf key k l) := by
    rw [(h i hi).mem_iff, groupOf_filter k fun k => part k = i]
    by_cases hk : part k = i
    · simp only [mem_map, mem_filter, decide_eq_true_eq, hk, true_and, if_true]
      refine and_congr_left fun _ => ⟨?_, ?_⟩
      · rintro ⟨a, ⟨ha, -⟩, rfl⟩
        exact ⟨a, ha, rfl⟩
      · rintro ⟨a, ha, rfl⟩
        exact ⟨a, ⟨ha, hk⟩, rfl⟩
    · simp only [mem_map, mem_filter, decide_eq_true_eq, hk, false_and, iff_false,
        not_and]
      rintro ⟨a, ⟨-, ha⟩, rfl⟩
      exact absurd ha hk
  refine ⟨?_, fun k b => ?_⟩
  · rw [map_flatMap, nodup_flatMap]
    refine ⟨fun i hi => (h i (mem_range.1 hi)).nodup, ?_⟩
    refine nodup_range.pairwise_of_forall_ne fun i hi j hj hij => ?_
    apply disjoint_left.2
    intro k hki hkj
    obtain ⟨⟨_, b⟩, hb, rfl⟩ := mem_map.1 hki
    obtain ⟨⟨k, b'⟩, hb', heq⟩ := mem_map.1 hkj
    obtain rfl : k = _ := heq
    exact hij (((hentry i (mem_range.1 hi) _ _).1 hb).1.symm.trans
      ((hentry j (mem_range.1 hj) _ _).1 hb').1)
  · rw [mem_flatMap]
    constructor
    · rintro ⟨i, hi, hb⟩
      exact ((hentry i (mem_range.1 hi) k b).1 hb).2
    · exact fun hb => ⟨part k, mem_range.2 (hpart k), (hentry _ (hpart k) k b).2 ⟨rfl, hb⟩⟩

end Grouped

/-! ## Merging -/

/-- The values of `f` on the parts of a list determine its value on the list. -/
def Decomposes (f : List α → β) (g : List β → β) : Prop :=
  ∀ groups : List (List α), groups ≠ [] → (∀ group ∈ groups, group ≠ []) →
    g (groups.map f) = f groups.flatten

def mergeBy (d : DistinctKeys κ) (g : List β → β) (entries : List (κ × β)) : List (κ × β) :=
  groupBy d Prod.fst (fun rows => g (rows.map Prod.snd)) entries

section Merging

variable {ls : List (List α)} {outs : List (List (κ × β))}

theorem mem_keys_flatten (h : List.Forall₂ (Grouped key f) ls outs) (k : κ) :
    k ∈ outs.flatten.map Prod.fst ↔ k ∈ ls.flatten.map key := by
  induction h with
  | nil => simp
  | cons hout _ ih =>
    rw [flatten_cons, flatten_cons, map_append, map_append, mem_append,
      mem_append, ih, ← groupOf_ne_nil, hout.groupOf_fst]
    split <;> simp_all

/-- The entries of a key are the values of its groups in those parts that have one. -/
theorem values_flatten (h : List.Forall₂ (Grouped key f) ls outs) (k : κ) :
    (groupOf Prod.fst k outs.flatten).map Prod.snd =
      ((ls.map (groupOf key k)).filter fun group => !group.isEmpty).map f := by
  rw [groupOf_flatten]
  induction h with
  | nil => rfl
  | @cons l out _ _ hout _ ih =>
    rw [map_cons, flatten_cons, map_append, ih, map_cons, filter_cons,
      hout.groupOf_fst]
    by_cases hk : k ∈ l.map key
    · have hne : (!(groupOf key k l).isEmpty) = true := by simpa using groupOf_ne_nil.2 hk
      rw [if_pos hk, if_pos hne]
      rfl
    · have hnil : groupOf key k l = [] := not_not.1 (mt groupOf_ne_nil.1 hk)
      rw [if_neg hk, hnil]
      rfl

/-- **Merging.** Groupings of parts, merged, are a grouping of the whole. -/
theorem grouped_mergeBy (d : DistinctKeys κ) {g : List β → β} (hfg : Decomposes f g)
    (h : List.Forall₂ (Grouped key f) ls outs) :
    Grouped key f ls.flatten (mergeBy d g outs.flatten) := by
  have hmerged := grouped_groupBy d Prod.fst (fun rows => g (rows.map Prod.snd)) outs.flatten
  refine ⟨hmerged.nodup, fun k b => ?_⟩
  rw [mergeBy, hmerged.mem_iff, mem_keys_flatten h]
  refine and_congr_right fun hk => ?_
  have hvalue : g ((groupOf Prod.fst k outs.flatten).map Prod.snd) =
      f (groupOf key k ls.flatten) := by
    rw [values_flatten h, hfg, flatten_filter_not_isEmpty, groupOf_flatten]
    · have hne := groupOf_ne_nil.2 hk
      rw [groupOf_flatten, ← flatten_filter_not_isEmpty] at hne
      exact fun hnil => hne (by rw [hnil]; rfl)
    · intro group hgroup hnil
      simp [hnil] at hgroup
  rw [hvalue]

end Merging

/-! ## Folds -/

section Folds

variable {op : β → β → β} {e : β} [Std.Associative op] [Std.LawfulIdentity op e]

theorem foldr_op_append (l l' : List β) :
    (l ++ l').foldr op e = op (l.foldr op e) (l'.foldr op e) := by
  have hassoc := ‹Std.Associative op›.assoc
  induction l with
  | nil => exact (Std.LawfulLeftIdentity.left_id _).symm
  | cons a l ih => rw [cons_append, foldr_cons, ih, foldr_cons, hassoc]

theorem foldr_op_flatten (ls : List (List β)) :
    (ls.map fun l => l.foldr op e).foldr op e = ls.flatten.foldr op e := by
  induction ls with
  | nil => rfl
  | cons l ls ih => rw [map_cons, foldr_cons, ih, flatten_cons, foldr_op_append]

omit [Std.LawfulIdentity op e] in
theorem foldr_op_dedup [Std.Commutative op] [Std.IdempotentOp op] [DecidableEq β] (l : List β) :
    l.dedup.foldr op e = l.foldr op e := by
  have hassoc := ‹Std.Associative op›.assoc
  have hcomm := ‹Std.Commutative op›.comm
  have habsorb {a : β} {l : List β} (h : a ∈ l) : op a (l.foldr op e) = l.foldr op e := by
    induction l with
    | nil => cases h
    | cons b l ih =>
      rw [foldr_cons, ← hassoc]
      rcases mem_cons.1 h with rfl | h
      · rw [‹Std.IdempotentOp op›.idempotent]
      · rw [hcomm a, hassoc, ih h]
  induction l with
  | nil => rfl
  | cons a l ih =>
    by_cases h : a ∈ l
    · rw [dedup_cons_of_mem h, ih, foldr_cons, habsorb h]
    · rw [dedup_cons_of_notMem h, foldr_cons, ih, foldr_cons]

omit [Std.LawfulIdentity op e] in
theorem foldr_op_congr [Std.Commutative op] [Std.IdempotentOp op] [DecidableEq β] {l l' : List β}
    (h : ∀ b, b ∈ l ↔ b ∈ l') : l.foldr op e = l'.foldr op e := by
  have hperm : l.dedup.Perm l'.dedup :=
    (perm_ext_iff_of_nodup l.nodup_dedup l'.nodup_dedup).2 fun b => by simp [h b]
  rw [← foldr_op_dedup l, hperm.foldr_op_eq, foldr_op_dedup l']

end Folds

end Sirius.Lib
