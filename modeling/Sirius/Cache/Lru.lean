import Sirius.Lib.Buckets

/-!
# The eviction list of the prefetching cache

The evictor thread keeps the entries that it may evict in one list in five buckets, the later ones for
entries with more demand (`lru_bucket_for`, `lru_insert`, `lru_erase` and `age_lru_buckets` in
`src/io/prefetching_cache.cpp`). `_lru_buckets[i]` is the iterator where bucket `i` ends. Every
operation repairs the iterators that its change of the list has made wrong.

The list and the iterators always come from one assignment of ascending bucket numbers to distinct
entries (`Represents`).
-/

namespace Sirius.Cache

open Lib List Option

/-! ## Entries -/

inductive EntryState where
  | empty | queued | loading | cached | inUse | evicting
  deriving DecidableEq, Repr

/-- What the evictor reads of a `cache_entry`, with the number of its chunks. -/
structure EntryData where
  nTotalRequest : Int
  requestTs : Nat
  consumptionTs : Nat
  state : EntryState
  chunks : Nat
  deriving DecidableEq, Repr

def nLruBuckets : Nat := 5

def EntryData.lruBucketFor (entry : EntryData) (age : Nat) : Nat :=
  let idx : Int := (nLruBuckets - 1 : Nat) + entry.nTotalRequest - age
  if idx < 0 then 0
  else if idx > (nLruBuckets - 1 : Nat) then nLruBuckets - 1
  else idx.toNat

def EntryData.isConsumedOrStale (entry : EntryData) (age : Nat) : Bool :=
  entry.requestTs ≤ entry.consumptionTs || entry.requestTs < age

theorem EntryData.lruBucketFor_lt (entry : EntryData) (age : Nat) :
    entry.lruBucketFor age < nLruBuckets := by
  have hbuckets : nLruBuckets = 5 := rfl
  simp only [lruBucketFor]
  split
  · omega
  split
  · omega
  · omega

/-! ## The list -/

variable {α : Type} [DecidableEq α]

/-- `_lru_list` and `_lru_buckets`. An entry is in the list at most once, by its flag `in_lru`, so that
an iterator is the entry it stands at, `none` at the end. -/
structure Lru (α : Type) where
  list : List α
  buckets : List (Option α)
  deriving DecidableEq, Repr

def Lru.initial : Lru α := ⟨[], List.replicate nLruBuckets none⟩

/-- The loop that goes down from below an index and redirects the iterators that stand at `boundary`,
until one does not. -/
def patchBelow (boundary new : Option α) : Nat → List (Option α) → List (Option α)
  | 0, buckets => buckets
  | i + 1, buckets =>
    if buckets[i]? = some boundary then patchBelow boundary new i (buckets.set i new) else buckets

def Lru.insert (lru : Lru α) (entry : α) (bucket : Nat) : Lru α :=
  let boundary := lru.buckets[bucket]?.getD none
  ⟨insertBefore boundary entry lru.list, patchBelow boundary (some entry) bucket lru.buckets⟩

/-- `lru_erase`, with the iterator that it returns. -/
def Lru.erase (lru : Lru α) (entry : α) : Option α × Lru α :=
  let next := nextOf lru.list entry
  (next, ⟨lru.list.erase entry, lru.buckets.map fun sep => if sep = some entry then next else sep⟩)

def Lru.age (lru : Lru α) : Lru α :=
  match lru.list.getLast? with
  | none => lru
  | some last =>
    -- every bucket takes over the end of the next one; the last element alone stays in the last bucket
    let shifted := lru.buckets.tail ++ lru.buckets.getLast?.toList
    ⟨lru.list, patchBelow none (some last) (nLruBuckets - 2) (shifted.set (nLruBuckets - 2) (some last))⟩

/-- `drain_candidates_into_lru` on the candidates that are still alive. -/
def Lru.drain (lru : Lru α) (data : α → EntryData) (age : Nat) (candidates : List α) : Lru α :=
  candidates.foldl
    (fun lru entry =>
      if entry ∈ lru.list then lru else lru.insert entry ((data entry).lruBucketFor age))
    lru

/-! ## Bucket numbers -/

structure Lru.Represents (lru : Lru α) (B : List (α × Nat)) : Prop where
  bucketed : Bucketed nLruBuckets B
  list : lru.list = B.map Prod.fst
  buckets : lru.buckets = boundaries nLruBuckets B

omit [DecidableEq α] in
theorem initial_represents : (Lru.initial : Lru α).Represents [] where
  bucketed := ⟨nodup_nil, List.Pairwise.nil, by simp⟩
  list := rfl
  buckets := rfl

variable {B : List (α × Nat)} {lru : Lru α}

omit [DecidableEq α] in
/-- Two lists of iterators agree if they do at the five places. -/
theorem eq_boundaries {buckets : List (Option α)} (hlength : buckets.length = nLruBuckets)
    (h : ∀ j, j < nLruBuckets → buckets[j]? = some (boundary B j)) :
    buckets = boundaries nLruBuckets B := by
  apply ext_getElem?
  intro j
  by_cases hj : j < nLruBuckets
  · rw [h j hj, getElem?_boundaries B hj]
  · rw [getElem?_eq_none (by omega), getElem?_eq_none (by simpa [boundaries] using hj)]

theorem length_patchBelow (boundary new : Option α) (b : Nat) (buckets : List (Option α)) :
    (patchBelow boundary new b buckets).length = buckets.length := by
  induction b generalizing buckets with
  | zero => rfl
  | succ b ih =>
    rw [patchBelow]
    split
    · rw [ih, length_set]
    · rfl

/-- If the iterators at `boundary` are the topmost ones, all of them are redirected. -/
theorem getElem?_patchBelow {boundary new : Option α} {b : Nat} {buckets : List (Option α)}
    (hup : ∀ i j, i ≤ j → j < b → buckets[i]? = some boundary → buckets[j]? = some boundary) (j : Nat) :
    (patchBelow boundary new b buckets)[j]? =
      if j < b ∧ buckets[j]? = some boundary then some new else buckets[j]? := by
  induction b generalizing buckets with
  | zero => simp [patchBelow]
  | succ b ih =>
    rw [patchBelow]
    split
    next hb =>
      have hlength : b < buckets.length := (List.getElem?_eq_some_iff.1 hb).1
      have hbelow : ∀ i, i < b → (buckets.set b new)[i]? = buckets[i]? := by
        intro i hi
        exact List.getElem?_set_ne (by omega)
      rw [ih]
      · by_cases hj : j < b
        · rw [hbelow j hj]
          simp [hj, Nat.lt_succ_of_lt hj]
        · rcases Nat.eq_or_lt_of_le (Nat.le_of_not_lt hj) with rfl | hlt
          · rw [List.getElem?_set_self hlength, if_neg (by omega),
              if_pos ⟨Nat.lt_succ_self b, hb⟩]
          · rw [List.getElem?_set_ne (by omega), if_neg (by omega), if_neg (by omega)]
      · intro i k hik hk hi
        rw [hbelow i (by omega)] at hi
        rw [hbelow k hk]
        exact hup i k hik (by omega) hi
    next hb =>
      rw [if_neg]
      rintro ⟨hj, hat⟩
      exact hb (hup j b (by omega) (by omega) hat)

omit [DecidableEq α] in
theorem Lru.Represents.getElem?_buckets (h : lru.Represents B) {j : Nat} (hj : j < nLruBuckets) :
    lru.buckets[j]? = some (boundary B j) := by
  rw [h.buckets, getElem?_boundaries B hj]

omit [DecidableEq α] in
/-- Where bucket `j` ends after an entry has come to the tail of bucket `b`. -/
theorem boundary_insertTail (B : List (α × Nat)) (b : Nat) (entry : α) (j : Nat) :
    boundary (insertTail b entry B) j =
      (boundary (B.filter fun x => x.2 ≤ b) j).or
        (if j < b then some entry else boundary (B.filter fun x => b < x.2) j) := by
  rw [insertTail, boundary_append, boundary_cons]

/-- **An insertion** puts the entry at the tail of its bucket. -/
theorem Lru.Represents.insert (h : lru.Represents B) {entry : α} (hnew : entry ∉ lru.list)
    {bucket : Nat} (hbucket : bucket < nLruBuckets) :
    (lru.insert entry bucket).Represents (insertTail bucket entry B) := by
  have hcut := Bucketed.filter_append h.bucketed.sorted bucket
  -- the part in front of the separator and the part behind it
  obtain ⟨front, hfront⟩ : ∃ front, front = B.filter fun x => x.2 ≤ bucket := ⟨_, rfl⟩
  obtain ⟨behind, hbehind⟩ : ∃ behind, behind = B.filter fun x => bucket < x.2 := ⟨_, rfl⟩
  rw [← hfront, ← hbehind] at hcut
  have hlate : ∀ x ∈ behind, bucket < x.2 := by
    intro x hx
    rw [hbehind] at hx
    simpa using of_mem_filter hx
  have hearly : ∀ x ∈ front, x.2 ≤ bucket := by
    intro x hx
    rw [hfront] at hx
    simpa using of_mem_filter hx
  have hsplit : ∀ j, boundary B j = (boundary front j).or (boundary behind j) := by
    intro j
    rw [← hcut, boundary_append]
  have hpos : boundary B bucket = behind.head?.map Prod.fst := by
    rw [hsplit, boundary_eq_none.2 hearly, none_or, boundary_of_lt hlate]
  have hbelow : ∀ j, j < bucket → boundary behind j = behind.head?.map Prod.fst :=
    fun j hj => boundary_of_lt fun x hx => hj.trans (hlate x hx)
  have hnodup : (front.map Prod.fst ++ behind.map Prod.fst).Nodup := by
    rw [← map_append, hcut]
    exact h.bucketed.nodup
  have hget : lru.buckets[bucket]?.getD none = behind.head?.map Prod.fst := by
    rw [h.getElem?_buckets hbucket, getD_some, hpos]
  -- an iterator below stands at the separator iff nothing is in the buckets between
  have hsame : ∀ j, j < bucket →
      (lru.buckets[j]? = some (behind.head?.map Prod.fst) ↔ boundary front j = none) := by
    intro j hj
    rw [h.getElem?_buckets (hj.trans hbucket), hsplit, hbelow j hj, some.injEq]
    cases hf : boundary front j with
    | none => simp
    | some a =>
      simp only [some_or, reduceCtorEq, iff_false]
      intro heq
      obtain ⟨x, hx, rfl, -⟩ := boundary_mem hf
      obtain ⟨y, hy, hya⟩ := map_eq_some_iff.1 heq.symm
      exact (nodup_append.1 hnodup).2.2 x.1 (mem_map_of_mem hx) y.1
        (mem_map_of_mem (mem_of_mem_head? hy)) hya.symm
  refine ⟨h.bucketed.insertTail (h.list ▸ hnew) hbucket, ?_, ?_⟩
  · show insertBefore (lru.buckets[bucket]?.getD none) entry lru.list = _
    have hlist : lru.list = front.map Prod.fst ++ behind.map Prod.fst := by
      rw [h.list, ← map_append, hcut]
    rw [hget, hlist, ← head?_map, insertBefore_append hnodup, insertTail, ← hfront, ← hbehind]
    simp
  · apply eq_boundaries
    · show (patchBelow _ _ _ lru.buckets).length = nLruBuckets
      rw [length_patchBelow, h.buckets]
      simp [boundaries]
    intro j hj
    show (patchBelow (lru.buckets[bucket]?.getD none) (some entry) bucket lru.buckets)[j]? = _
    rw [hget, getElem?_patchBelow, boundary_insertTail, ← hfront, ← hbehind]
    · by_cases hlt : j < bucket
      · simp only [hlt, true_and, if_true, hsame j hlt]
        split
        next hnone =>
          rw [hnone, none_or]
        next hsome =>
          rw [h.getElem?_buckets hj, hsplit]
          cases hf : boundary front j with
          | none => exact absurd hf hsome
          | some a => rfl
      · rw [if_neg (fun hc => hlt hc.1), if_neg hlt, h.getElem?_buckets hj, hsplit]
    · intro i k hik hk hi
      rw [hsame i (by omega)] at hi
      exact (hsame k hk).2 (boundary_eq_none_of_le hik hi)

/-- **An erasure** takes the entry out, and returns the iterator behind it. -/
theorem Lru.Represents.erase {B₁ B₂ : List (α × Nat)} {x : α × Nat}
    (h : lru.Represents (B₁ ++ x :: B₂)) :
    (lru.erase x.1).1 = B₂.head?.map Prod.fst ∧ (lru.erase x.1).2.Represents (B₁ ++ B₂) := by
  have hlist : lru.list = B₁.map Prod.fst ++ x.1 :: B₂.map Prod.fst := by
    rw [h.list, map_append, map_cons]
  have hnodup := h.bucketed.nodup
  rw [← h.list, hlist, nodup_append] at hnodup
  have hfront : x.1 ∉ B₁.map Prod.fst := fun hmem => hnodup.2.2 _ hmem _ (.head _) rfl
  have hbehind : x.1 ∉ B₂.map Prod.fst := (nodup_cons.1 hnodup.2.1).1
  have hnext : nextOf lru.list x.1 = B₂.head?.map Prod.fst := by
    rw [hlist, nextOf_append hfront, head?_map]
  have hne : ∀ {B : List (α × Nat)}, x.1 ∉ B.map Prod.fst → ∀ j, boundary B j ≠ some x.1 := by
    intro B hmem j heq
    obtain ⟨y, hy, hyx, -⟩ := boundary_mem heq
    exact hmem (hyx ▸ mem_map_of_mem hy)
  refine ⟨hnext, h.bucketed.sublist ((List.Sublist.refl B₁).append (sublist_cons_self x B₂)), ?_, ?_⟩
  · show lru.list.erase x.1 = _
    rw [hlist, erase_append_right _ hfront, erase_cons_head, map_append]
  · apply eq_boundaries
    · show (map _ lru.buckets).length = nLruBuckets
      rw [length_map, h.buckets]
      simp [boundaries]
    intro j hj
    show (lru.buckets.map fun sep => if sep = some x.1 then nextOf lru.list x.1 else sep)[j]? = _
    rw [getElem?_map, h.getElem?_buckets hj, map_some, hnext, boundary_append,
      boundary_append, some.injEq]
    cases hb : boundary B₁ j with
    | some a =>
      rw [some_or, some_or, if_neg]
      exact hb ▸ hne hfront j
    | none =>
      rw [none_or, none_or, boundary_cons]
      by_cases hlt : j < x.2
      · -- the separator stood at the entry, and all that follows is in later buckets
        have hlate : ∀ y ∈ B₂, j < y.2 := by
          intro y hy
          have hsorted := (pairwise_append.1 h.bucketed.sorted).2.1
          exact hlt.trans_le ((pairwise_cons.1 hsorted).1 y hy)
        rw [if_pos hlt, if_pos rfl, boundary_of_lt hlate]
      · rw [if_neg hlt, if_neg (hne hbehind j)]

/-- The bucket numbers after one aging: all fall by one, but the last entry goes to the last bucket. -/
def ageNumbers (B : List (α × Nat)) (last : α) : List (α × Nat) :=
  (B.map fun x => (x.1, x.2 - 1)) ++ [(last, nLruBuckets - 1)]

omit [DecidableEq α] in
theorem boundary_ageNumbers {j : Nat} (last : α) :
    boundary (ageNumbers B last) j =
      (boundary B (j + 1)).or (if j < nLruBuckets - 1 then some last else none) := by
  rw [ageNumbers, boundary_append]
  congr 1
  · simp only [boundary, find?_map, Option.map_map]
    congr 1
    congr 1
    funext x
    simp only [Function.comp_apply, decide_eq_decide]
    omega
  · exact boundary_cons ..

omit [DecidableEq α] in
theorem Bucketed.ageNumbers {x : α × Nat} (h : Bucketed nLruBuckets (B ++ [x])) :
    Bucketed nLruBuckets (ageNumbers B x.1) := by
  have hbuckets : nLruBuckets = 5 := rfl
  have hold : ∀ y ∈ B, y.2 < nLruBuckets := fun y hy => h.lt y (mem_append_left _ hy)
  refine ⟨?_, ?_, ?_⟩
  · have hmap : (Cache.ageNumbers B x.1).map Prod.fst = (B ++ [x]).map Prod.fst := by
      simp [Cache.ageNumbers, Function.comp_def]
    rw [hmap]
    exact h.nodup
  · apply pairwise_append.2
    refine ⟨?_, pairwise_singleton .., ?_⟩
    · apply pairwise_map.2
      apply (pairwise_append.1 h.sorted).1.imp
      intro y z hyz
      simp only
      omega
    · intro y hy z hz
      obtain ⟨y, hmem, rfl⟩ := mem_map.1 hy
      rw [mem_singleton] at hz
      subst hz
      have := hold y hmem
      simp only
      omega
  · intro y hy
    rcases mem_append.1 hy with hy | hy
    · obtain ⟨y, hmem, rfl⟩ := mem_map.1 hy
      have := hold y hmem
      simp only
      omega
    · rw [mem_singleton] at hy
      subst hy
      simp only
      omega

/-- **Aging** shifts the bucket numbers down. -/
theorem Lru.Represents.age (h : lru.Represents B) : ∃ B', lru.age.Represents B' := by
  rcases eq_nil_or_concat B with rfl | ⟨B, x, rfl⟩
  · exact ⟨[], by rw [Lru.age, h.list]; exact h⟩
  have hbuckets : nLruBuckets = 5 := rfl
  rw [concat_eq_append] at h
  refine ⟨ageNumbers B x.1, Bucketed.ageNumbers h.bucketed, ?_, ?_⟩
  · rw [Lru.age, h.list]
    simp [ageNumbers, Function.comp_def]
  · have hage : lru.age.buckets = patchBelow none (some x.1) 3
        [boundary (B ++ [x]) 1, boundary (B ++ [x]) 2, boundary (B ++ [x]) 3, some x.1,
          boundary (B ++ [x]) 4] := by
      rw [Lru.age, h.list, h.buckets]
      simp only [map_append, map_cons, map_nil, getLast?_concat]
      rfl
    have hlast : boundary (B ++ [x]) 4 = none :=
      boundary_eq_none.2 fun y hy => Nat.le_of_lt_succ (h.bucketed.lt y hy)
    have hshift : ∀ j, (boundary (B ++ [x]) j = none → some x.1 = (boundary B j).or (some x.1)) ∧
        (boundary (B ++ [x]) j ≠ none → boundary (B ++ [x]) j = (boundary B j).or (some x.1)) := by
      intro j
      rw [boundary_append, boundary_cons]
      cases boundary B j with
      | some a => simp
      | none => by_cases hlt : j < x.2 <;> simp [boundary, hlt]
    rw [hage]
    apply eq_boundaries
    · rw [length_patchBelow]
      rfl
    intro j hj
    have hget : ∀ j, j < 3 → [boundary (B ++ [x]) 1, boundary (B ++ [x]) 2, boundary (B ++ [x]) 3,
        some x.1, boundary (B ++ [x]) 4][j]? = some (boundary (B ++ [x]) (j + 1)) := by
      intro j hj
      obtain rfl | rfl | rfl : j = 0 ∨ j = 1 ∨ j = 2 := by omega
      all_goals rfl
    rw [boundary_ageNumbers, getElem?_patchBelow]
    · by_cases hlt : j < 3
      · rw [hget j hlt, if_pos (show j < nLruBuckets - 1 by omega)]
        by_cases hnone : boundary (B ++ [x]) (j + 1) = none
        · rw [if_pos ⟨hlt, by rw [hnone]⟩]
          exact congrArg some ((hshift (j + 1)).1 hnone)
        · rw [if_neg fun hc => hnone (some.inj hc.2)]
          exact congrArg some ((hshift (j + 1)).2 hnone)
      · -- the last two separators
        rw [if_neg fun hc => hlt hc.1]
        have hnone : ∀ k, 4 ≤ k → boundary B k = none := by
          intro k hk
          have h4 := boundary_eq_none_of_le hk hlast
          rw [boundary_eq_none] at h4 ⊢
          exact fun y hy => h4 y (mem_append_left _ hy)
        rw [hnone (j + 1) (by omega), none_or]
        obtain rfl | rfl : j = 3 ∨ j = 4 := by omega
        · rfl
        · rw [if_neg (by omega)]
          exact congrArg some hlast
    · intro i k hik hk hi
      rw [hget i (by omega), some.injEq] at hi
      rw [hget k hk, boundary_eq_none_of_le (by omega) hi]

/-! ## Reachable lists -/

theorem Lru.Represents.drain (h : lru.Represents B) (data : α → EntryData) (age : Nat)
    (candidates : List α) : ∃ B', (lru.drain data age candidates).Represents B' := by
  induction candidates generalizing lru B with
  | nil => exact ⟨B, h⟩
  | cons entry candidates ih =>
    rw [Lru.drain, foldl_cons]
    split
    · exact ih h
    next hnew =>
      exact ih (h.insert hnew ((data entry).lruBucketFor_lt age))

end Sirius.Cache
