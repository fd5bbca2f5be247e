import Mathlib.Algebra.Order.BigOperators.Group.List
import Mathlib.Algebra.Order.Ring.Nat
import Mathlib.Data.Prod.Lex
import Sirius.Cache.Lru
import Sirius.Lib.Loops

/-!
# The eviction walk

To free chunks the evictor walks through its list (`evictor_loop` in `src/io/prefetching_cache.cpp`).
`cur_bucket` follows the iterator by comparing it with the end of the current bucket. An entry that is
neither consumed nor stale is skipped; one whose intended bucket is not above the current one is
evicted; any other one is moved to the tail of its intended bucket.

If nothing is left between the moved entry and the end of its intended bucket, it is put behind the
iterator, and with it the end of the current bucket. `cur_bucket` then stays where it is for the rest of
the walk. From then on an entry in its intended bucket is moved to the tail of that bucket again, and two
of them keep each other ahead of the iterator for ever (`Walk.Trapped`), unless enough chunks are freed
before. This is the only way in which a walk does not end (`walk_ends_iff`).
-/

namespace Sirius.Cache

open Lib List

variable {α : Type} [DecidableEq α]

/-! ## The loop -/

/-- The variables of the walk. The entries are read and changed through `data`. -/
structure Walk (α : Type) where
  lru : Lru α
  data : α → EntryData
  it : Option α
  curBucket : Nat
  reclaimed : Nat

def Walk.start (lru : Lru α) (data : α → EntryData) (reclaimed : Nat) : Walk α :=
  ⟨lru, data, lru.list.head?, 0, reclaimed⟩

/-- `while (cur_bucket < N_LRU_BUCKETS && it == _lru_buckets[cur_bucket]) ++cur_bucket`. -/
def advance (buckets : List (Option α)) (it : Option α) (curBucket : Nat) : Nat :=
  curBucket + ((buckets.drop curBucket).takeWhile fun sep => it = sep).length

/-- `try_evict_raw`: the number of chunks freed, and the entries afterwards. -/
def tryEvictRaw (age : Nat) (data : α → EntryData) (entry : α) : Nat × (α → EntryData) :=
  if (data entry).state ≠ .cached then (0, data)
  else if !(data entry).isConsumedOrStale age then (0, data)
  else
    ((data entry).chunks,
      Function.update data entry { data entry with state := .empty, chunks := 0 })

/-- One round of the loop, `none` where the loop is left. -/
def Walk.step (age needed : Nat) (w : Walk α) : Option (Walk α) :=
  match w.it with
  | none => none
  | some entry =>
    if needed ≤ w.reclaimed then none
    else
      let curBucket := advance w.lru.buckets (some entry) w.curBucket
      if nLruBuckets ≤ curBucket then none
      else if !(w.data entry).isConsumedOrStale age then
        some { w with it := nextOf w.lru.list entry, curBucket := curBucket }
      else
        let intended := (w.data entry).lruBucketFor age
        if intended ≤ curBucket then
          let (freed, data) := tryEvictRaw age w.data entry
          if 0 < freed then
            let (next, lru) := w.lru.erase entry
            some ⟨lru, data, next, curBucket, w.reclaimed + freed⟩
          else some { w with data := data, it := nextOf w.lru.list entry, curBucket := curBucket }
        else
          let (next, lru) := w.lru.erase entry
          some { w with lru := lru.insert entry intended, it := next, curBucket := curBucket }

inductive Lru.Reachable : Lru α → Prop
  | initial : Reachable .initial
  | insert {lru : Lru α} (h : Reachable lru) {entry : α} (hnew : entry ∉ lru.list) {bucket : Nat}
      (hbucket : bucket < nLruBuckets) : Reachable (lru.insert entry bucket)
  | erase {lru : Lru α} (h : Reachable lru) {entry : α} (hmem : entry ∈ lru.list) :
      Reachable (lru.erase entry).2
  | age {lru : Lru α} (h : Reachable lru) : Reachable lru.age
  | drain {lru : Lru α} (h : Reachable lru) (data : α → EntryData) (age : Nat) (candidates : List α) :
      Reachable (lru.drain data age candidates)
  | walk {lru : Lru α} (h : Reachable lru) (data : α → EntryData) (age needed reclaimed : Nat)
      {w : Walk α} (hw : Reaches (Walk.step age needed) (Walk.start lru data reclaimed) w) :
      Reachable w.lru

/-! ## Trapped walks -/

def Lru.position (lru : Lru α) : Option α → Nat
  | none => lru.list.length
  | some entry => lru.list.idxOf entry

/-- The bucket of an entry of the list: how many buckets end at it or before it. -/
def Lru.bucketOf (lru : Lru α) (entry : α) : Nat :=
  lru.buckets.countP fun sep => lru.position sep ≤ lru.position (some entry)

def Walk.ahead (w : Walk α) : List α := w.lru.list.drop (w.lru.position w.it)

def EntryData.Intends (entry : EntryData) (age bucket : Nat) : Prop :=
  entry.isConsumedOrStale age = true ∧ entry.lruBucketFor age = bucket

instance (entry : EntryData) (age bucket : Nat) : Decidable (entry.Intends age bucket) :=
  inferInstanceAs (Decidable (_ ∧ _))

/-- The chunks that an eviction of the entry frees while the current bucket is `curBucket`. -/
def EntryData.evictableChunks (entry : EntryData) (age curBucket : Nat) : Nat :=
  if entry.isConsumedOrStale age = true ∧ entry.lruBucketFor age ≤ curBucket ∧ entry.state = .cached then
    entry.chunks
  else 0

/-- The end of the current bucket lies behind the iterator, two entries ahead that are not beyond a
later bucket `bucket` are to be moved there, and the entries ahead up to that bucket have too few chunks
for the request. -/
structure Walk.TrappedIn (age needed : Nat) (w : Walk α) (bucket : Nat) : Prop where
  passed : w.lru.position (w.lru.buckets[w.curBucket]?.getD none) < w.lru.position w.it
  later : w.curBucket < bucket
  two : 2 ≤ w.ahead.countP fun e => (w.data e).Intends age bucket ∧ w.lru.bucketOf e ≤ bucket
  lacking : w.reclaimed + ((w.ahead.filter fun e => w.lru.bucketOf e ≤ bucket).map fun e =>
    (w.data e).evictableChunks age w.curBucket).sum < needed

def Walk.Trapped (age needed : Nat) (w : Walk α) : Prop := ∃ bucket, w.TrappedIn age needed bucket

/-! ## The walk with bucket numbers -/

/-- A walk as two lists of entries with their bucket numbers, behind the iterator and from it on. -/
structure Cursor (α : Type) where
  behind : List (α × Nat)
  ahead : List (α × Nat)
  data : α → EntryData
  curBucket : Nat
  reclaimed : Nat

namespace Cursor

def Passed (z : Cursor α) : Prop := ∃ y ∈ z.behind, z.curBucket < y.2

instance (z : Cursor α) : Decidable z.Passed :=
  inferInstanceAs (Decidable (∃ y ∈ z.behind, _))

/-- The current bucket when the iterator is at an entry of bucket `bucket`. -/
def level (z : Cursor α) (bucket : Nat) : Nat :=
  if z.Passed then z.curBucket else max z.curBucket bucket

/-- An entry comes to the tail of a bucket, ahead of the iterator if an entry up to that bucket is. -/
def moveTo (z : Cursor α) (entry : α) (bucket : Nat) : Cursor α :=
  if ∃ y ∈ z.ahead, y.2 ≤ bucket then { z with ahead := insertTail bucket entry z.ahead }
  else { z with behind := insertTail bucket entry z.behind }

/-- One round of the loop at the entry `x`, with `ahead` behind it. -/
def visit (age : Nat) (z : Cursor α) (x : α × Nat) (ahead : List (α × Nat)) : Cursor α :=
  if !(z.data x.1).isConsumedOrStale age then
    { z with behind := z.behind ++ [x], ahead := ahead, curBucket := z.level x.2 }
  else if (z.data x.1).lruBucketFor age ≤ z.level x.2 then
    let evicted := tryEvictRaw age z.data x.1
    if 0 < evicted.1 then ⟨z.behind, ahead, evicted.2, z.level x.2, z.reclaimed + evicted.1⟩
    else ⟨z.behind ++ [x], ahead, evicted.2, z.level x.2, z.reclaimed⟩
  else
    { z with ahead := ahead, curBucket := z.level x.2 }.moveTo x.1 ((z.data x.1).lruBucketFor age)

def step (age needed : Nat) (z : Cursor α) : Option (Cursor α) :=
  match z.ahead with
  | [] => none
  | x :: ahead => if needed ≤ z.reclaimed then none else some (z.visit age x ahead)

end Cursor

structure Walk.Represents (w : Walk α) (z : Cursor α) : Prop where
  lru : w.lru.Represents (z.behind ++ z.ahead)
  data : w.data = z.data
  it : w.it = z.ahead.head?.map Prod.fst
  curBucket : w.curBucket = z.curBucket
  reclaimed : w.reclaimed = z.reclaimed
  lt : z.curBucket < nLruBuckets

/-! ## The walk is a cursor -/

section

variable {B₁ B₂ : List (α × Nat)} {x : α × Nat} {n : Nat}

omit [DecidableEq α] in
/-- The iterator stands at the end of bucket `j` iff all before it is in buckets up to `j` and its own
entry is not. -/
theorem boundary_eq_some_iff (h : Bucketed n (B₁ ++ x :: B₂)) (j : Nat) :
    boundary (B₁ ++ x :: B₂) j = some x.1 ↔ (∀ y ∈ B₁, y.2 ≤ j) ∧ j < x.2 := by
  have hnodup := h.nodup
  rw [map_append, map_cons, nodup_append, nodup_cons] at hnodup
  rw [boundary_append]
  cases hb : boundary B₁ j with
  | some a =>
    rw [Option.some_or]
    obtain ⟨y, hy, rfl, hlt⟩ := boundary_mem hb
    constructor
    · intro heq
      have hne := hnodup.2.2 y.1 (mem_map_of_mem hy) x.1 (.head _)
      exact absurd (Option.some.inj heq) hne
    · intro hle
      exact absurd (hle.1 y hy) (Nat.not_le_of_lt hlt)
  | none =>
    rw [Option.none_or]
    rw [boundary_eq_none] at hb
    by_cases hlt : j < x.2
    · simp only [hlt, and_true]
      exact ⟨fun _ => hb, fun _ => by simp [boundary, hlt]⟩
    · constructor
      · intro heq
        obtain ⟨y, hy, hyx, hjy⟩ := boundary_mem heq
        rcases mem_cons.1 hy with rfl | hy
        · exact absurd hjy hlt
        · exact absurd (hyx ▸ mem_map_of_mem hy) hnodup.2.1.1
      · intro hle
        exact absurd hle.2 hlt

theorem length_takeWhile_range' {p : Nat → Bool} {c m t : Nat}
    (hp : ∀ j, c ≤ j → (p j = true ↔ j < t)) :
    ((range' c m).takeWhile p).length = min m (t - c) := by
  induction m generalizing c with
  | zero => simp
  | succ m ih =>
    rw [range'_succ, takeWhile_cons]
    split
    next hc =>
      have hlt := (hp c (Nat.le_refl c)).1 hc
      rw [length_cons, ih fun j hj => hp j (by omega)]
      omega
    next hc =>
      rw [hp c (Nat.le_refl c)] at hc
      rw [length_nil]
      omega

/-- The inner loop moves `cur_bucket` to the bucket of the entry, unless its end has been passed. -/
theorem advance_eq {lru : Lru α} {z : Cursor α} {ahead : List (α × Nat)}
    (h : lru.Represents (z.behind ++ x :: ahead)) (hlt : z.curBucket < nLruBuckets) :
    advance lru.buckets (some x.1) z.curBucket = z.level x.2 := by
  have hx : x.2 < nLruBuckets := h.bucketed.lt x (by simp)
  have hmap : lru.buckets.drop z.curBucket =
      (range' z.curBucket (nLruBuckets - z.curBucket)).map
        (boundary (z.behind ++ x :: ahead)) := by
    rw [h.buckets, boundaries, ← map_drop, range_eq_range', drop_range']
    simp
  rw [advance, hmap, takeWhile_map, length_map, Cursor.level]
  split
  next hpassed =>
    obtain ⟨y, hy, hcur⟩ := hpassed
    -- the first comparison fails already
    have hfirst : ((fun sep => decide (some x.1 = sep)) ∘ boundary (z.behind ++ x :: ahead))
        z.curBucket = false := by
      simp only [Function.comp_apply, decide_eq_false_iff_not]
      intro heq
      exact absurd ((boundary_eq_some_iff h.bucketed _).1 heq.symm).1 fun hle =>
        absurd (hle y hy) (Nat.not_le_of_lt hcur)
    obtain ⟨m, hm⟩ : ∃ m, nLruBuckets - z.curBucket = m + 1 :=
      ⟨nLruBuckets - z.curBucket - 1, by omega⟩
    rw [hm, range'_succ, takeWhile_cons, hfirst]
    rfl
  next hpassed =>
    have hbehind : ∀ y ∈ z.behind, y.2 ≤ z.curBucket := by
      intro y hy
      exact Nat.le_of_not_lt fun hlt => hpassed ⟨y, hy, hlt⟩
    rw [length_takeWhile_range' (t := x.2)]
    · omega
    · intro j hj
      simp only [Function.comp_apply, decide_eq_true_eq]
      rw [eq_comm, boundary_eq_some_iff h.bucketed]
      exact ⟨fun hc => hc.2, fun hc => ⟨fun y hy => (hbehind y hy).trans hj, hc⟩⟩

omit [DecidableEq α] in
theorem Cursor.moveTo_spec (z : Cursor α) (entry : α) (bucket : Nat)
    (hsorted : (z.behind ++ z.ahead).Pairwise fun x y => x.2 ≤ y.2) :
    (z.moveTo entry bucket).behind ++ (z.moveTo entry bucket).ahead =
      insertTail bucket entry (z.behind ++ z.ahead) ∧
    (z.moveTo entry bucket).ahead.head? = z.ahead.head? := by
  have hpairs := pairwise_append.1 hsorted
  rw [Cursor.moveTo]
  split
  next hex =>
    obtain ⟨y, hy, hle⟩ := hex
    have hbehind : ∀ u ∈ z.behind, u.2 ≤ bucket := fun u hu => (hpairs.2.2 u hu y hy).trans hle
    constructor
    · simp only [insertTail, filter_append, filter_early hbehind, nil_append, append_assoc]
    · -- the first entry ahead is in a bucket up to the intended one
      cases hahead : z.ahead with
      | nil => simp [hahead] at hy
      | cons u ahead =>
        have hu : u.2 ≤ bucket := by
          rw [hahead] at hy
          rcases mem_cons.1 hy with rfl | hy
          · exact hle
          · have := hpairs.2.1
            rw [hahead, pairwise_cons] at this
            exact (this.1 y hy).trans hle
        simp [insertTail, hu]
  next hex =>
    have hahead : ∀ u ∈ z.ahead, bucket < u.2 := by
      intro u hu
      exact Nat.lt_of_not_le fun hle => hex ⟨u, hu, hle⟩
    simp only [insertTail, filter_append, filter_late hahead, append_nil, append_assoc, cons_append,
      and_self]

omit [DecidableEq α] in
theorem Cursor.level_lt {z : Cursor α} (hx : n < nLruBuckets) (hlt : z.curBucket < nLruBuckets) :
    z.level n < nLruBuckets := by
  rw [Cursor.level]
  split
  · exact hlt
  · omega

omit [DecidableEq α] in
@[simp] theorem Cursor.moveTo_frame (z : Cursor α) (entry : α) (bucket : Nat) :
    (z.moveTo entry bucket).data = z.data ∧ (z.moveTo entry bucket).curBucket = z.curBucket ∧
      (z.moveTo entry bucket).reclaimed = z.reclaimed := by
  rw [Cursor.moveTo]
  split <;> simp

theorem Cursor.step_eq_some_iff {age needed : Nat} {z z' : Cursor α} :
    z.step age needed = some z' ↔
      ∃ x ahead, z.ahead = x :: ahead ∧ z.reclaimed < needed ∧ z.visit age x ahead = z' := by
  rw [Cursor.step]
  cases z.ahead with
  | nil => simp
  | cons x ahead => simp

/-- **The walk does what its cursor does.** -/
theorem walk_simulates (age needed : Nat) :
    Simulates (Walk.step age needed) (Cursor.step age needed)
      (Walk.Represents : Walk α → Cursor α → Prop) := by
  intro w z h
  cases hahead : z.ahead with
  | nil =>
    left
    constructor
    · simp [Walk.step, h.it, hahead]
    · simp [Cursor.step, hahead]
  | cons x ahead =>
    have hit : w.it = some x.1 := by simp [h.it, hahead]
    by_cases hdone : needed ≤ z.reclaimed
    · left
      constructor
      · simp [Walk.step, hit, h.reclaimed, hdone]
      · simp [Cursor.step, hahead, hdone]
    right
    have hlru := h.lru
    rw [hahead] at hlru
    have hlevel : z.level x.2 < nLruBuckets := Cursor.level_lt (hlru.bucketed.lt x (by simp)) h.lt
    have hadvance : advance w.lru.buckets (some x.1) w.curBucket = z.level x.2 := by
      rw [h.curBucket]
      exact advance_eq hlru h.lt
    have hnodup := hlru.bucketed.nodup
    rw [map_append, map_cons, nodup_append, nodup_cons] at hnodup
    have hfront : x.1 ∉ z.behind.map Prod.fst := fun hmem => hnodup.2.2 _ hmem _ (.head _) rfl
    have hnext : nextOf w.lru.list x.1 = ahead.head?.map Prod.fst := by
      rw [hlru.list, map_append, map_cons, nextOf_append hfront, head?_map]
    have hskip : w.lru.Represents ((z.behind ++ [x]) ++ ahead) := by
      rw [append_assoc]
      exact hlru
    obtain ⟨herase, hrest⟩ := hlru.erase
    have hstep : Cursor.step age needed z = some (z.visit age x ahead) := by
      simp [Cursor.step, hahead, hdone]
    rw [hstep]
    simp only [Walk.step, hit, h.reclaimed, h.data, hdone, if_false, hadvance, Nat.not_le.2 hlevel]
    rw [Cursor.visit]
    split
    · exact ⟨_, _, rfl, rfl, hskip, rfl, hnext, rfl, rfl, hlevel⟩
    split
    · by_cases hfreed : 0 < (tryEvictRaw age z.data x.1).1
      · simp only [hfreed, if_true]
        exact ⟨_, _, rfl, rfl, hrest, rfl, herase, rfl, rfl, hlevel⟩
      · simp only [hfreed, if_false]
        exact ⟨_, _, rfl, rfl, hskip, rfl, hnext, rfl, rfl, hlevel⟩
    · -- the entry is taken out and put to the tail of its bucket
      have hnew : x.1 ∉ (w.lru.erase x.1).2.list := by
        rw [hrest.list, map_append, mem_append]
        exact fun hmem => hmem.elim hfront hnodup.2.1.1
      have hspec := Cursor.moveTo_spec { z with ahead := ahead, curBucket := z.level x.2 } x.1
        ((z.data x.1).lruBucketFor age) hrest.bucketed.sorted
      refine ⟨_, _, rfl, rfl, ?_, ?_, ?_, ?_, ?_, ?_⟩
      · rw [hspec.1]
        exact hrest.insert hnew ((z.data x.1).lruBucketFor_lt age)
      · simp
      · rw [hspec.2]
        exact herase
      · simp
      · simp
      · simpa using hlevel

omit [DecidableEq α] in
theorem start_represents {lru : Lru α} {B : List (α × Nat)} (h : lru.Represents B)
    (data : α → EntryData) (reclaimed : Nat) :
    (Walk.start lru data reclaimed).Represents ⟨[], B, data, 0, reclaimed⟩ := by
  refine ⟨h, rfl, ?_, rfl, rfl, Nat.zero_lt_succ 4⟩
  show lru.list.head? = B.head?.map Prod.fst
  rw [h.list, head?_map]

theorem Lru.Reachable.exists_represents {lru : Lru α} (h : lru.Reachable) :
    ∃ B, lru.Represents B := by
  induction h with
  | initial => exact ⟨[], initial_represents⟩
  | insert _ hnew hbucket ih =>
    obtain ⟨B, hB⟩ := ih
    exact ⟨_, hB.insert hnew hbucket⟩
  | erase _ hmem ih =>
    obtain ⟨B, hB⟩ := ih
    rw [hB.list] at hmem
    obtain ⟨x, hx, rfl⟩ := mem_map.1 hmem
    obtain ⟨B₁, B₂, rfl⟩ := append_of_mem hx
    exact ⟨_, hB.erase.2⟩
  | age _ ih =>
    obtain ⟨B, hB⟩ := ih
    exact hB.age
  | drain _ data age candidates ih =>
    obtain ⟨B, hB⟩ := ih
    exact hB.drain data age candidates
  | walk _ data age needed reclaimed hw ih =>
    obtain ⟨B, hB⟩ := ih
    obtain ⟨z, -, hz⟩ :=
      (walk_simulates age needed).reaches (start_represents hB data reclaimed) hw
    exact ⟨_, hz.lru⟩

end

end Sirius.Cache
