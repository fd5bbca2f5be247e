import Sirius.Cache.Eviction

/-!
# When the eviction walk ends

In a walk that is not trapped every round lowers a measure: first the entries ahead, where one that is
still to be moved up counts twice, then how many other entries stand behind those that are in their
intended bucket. The second part is for an entry that is moved to the tail of its own bucket. A trapped
walk stays trapped.
-/

namespace Sirius.Cache

open Lib List

variable {α : Type}

/-! ## Positions -/

section

variable [DecidableEq α] {lru : Lru α} {B B₁ B₂ : List (α × Nat)} {x : α × Nat}

theorem position_of_cut (h : lru.Represents (B₁ ++ B₂)) :
    lru.position (B₂.head?.map Prod.fst) = B₁.length := by
  have hlist : lru.list = B₁.map Prod.fst ++ B₂.map Prod.fst := by rw [h.list, map_append]
  cases B₂ with
  | nil => simp [Lru.position, hlist]
  | cons x B₂ =>
    have hnodup := h.bucketed.nodup
    rw [map_append, map_cons, nodup_append] at hnodup
    have hfront : x.1 ∉ B₁.map Prod.fst := fun hmem => hnodup.2.2 _ hmem _ (.head _) rfl
    show lru.list.idxOf x.1 = B₁.length
    rw [hlist, idxOf_append_of_notMem hfront, map_cons, idxOf_cons_self]
    simp

theorem position_boundary (h : lru.Represents B) (j : Nat) :
    lru.position (boundary B j) = (B.filter fun y => y.2 ≤ j).length := by
  have hcut := Bucketed.filter_append h.bucketed.sorted j
  have hboundary : boundary B j = (B.filter fun y => j < y.2).head?.map Prod.fst := by
    rw [← boundary_of_lt (j := j) fun y hy => by simpa using of_mem_filter hy]
    conv_lhs => rw [← hcut]
    rw [boundary_append, boundary_eq_none.2 fun y hy => by simpa using of_mem_filter hy,
      Option.none_or]
  rw [hboundary]
  apply position_of_cut
  rw [hcut]
  exact h

theorem bucketOf_eq (h : lru.Represents B) (hx : x ∈ B) : lru.bucketOf x.1 = x.2 := by
  obtain ⟨B₁, B₂, rfl⟩ := append_of_mem hx
  have hpos : lru.position (some x.1) = B₁.length := position_of_cut h
  have hpairs := pairwise_append.1 h.bucketed.sorted
  have hat : ∀ j, lru.position (boundary (B₁ ++ x :: B₂) j) ≤ B₁.length ↔ j < x.2 := by
    intro j
    rw [position_boundary h, filter_append, length_append]
    constructor
    · intro hle
      by_contra hlt
      have hfront : ∀ y ∈ B₁, y.2 ≤ j :=
        fun y hy => (hpairs.2.2 y hy x (.head _)).trans (Nat.le_of_not_lt hlt)
      rw [(filter_early hfront).1, filter_cons_of_pos (by simpa using hlt), length_cons] at hle
      omega
    · intro hlt
      have hbehind : ∀ y ∈ x :: B₂, j < y.2 := by
        intro y hy
        rcases mem_cons.1 hy with rfl | hy
        · exact hlt
        · exact hlt.trans_le ((pairwise_cons.1 hpairs.2.1).1 y hy)
      rw [(filter_late hbehind).1]
      simpa using length_filter_le ..
  rw [Lru.bucketOf, h.buckets, boundaries, countP_map, hpos]
  have hcount : ∀ n, (range n).countP
      ((fun sep => decide (lru.position sep ≤ B₁.length)) ∘ boundary (B₁ ++ x :: B₂)) = min n x.2 := by
    intro n
    induction n with
    | zero => simp
    | succ n ih =>
      rw [range_succ, countP_append, ih, countP_singleton]
      simp only [Function.comp_apply, hat]
      split <;> rename_i hlt <;> simp only [decide_eq_true_eq] at hlt <;> omega
  rw [hcount]
  have := h.bucketed.lt x (by simp)
  omega

end

/-! ## Traps of the cursor -/

/-- `Walk.TrappedIn` by bucket numbers. -/
structure Cursor.TrappedIn (age needed : Nat) (z : Cursor α) (bucket : Nat) : Prop where
  passed : z.Passed
  later : z.curBucket < bucket
  two : 2 ≤ z.ahead.countP fun x => (z.data x.1).Intends age bucket ∧ x.2 ≤ bucket
  lacking : z.reclaimed + ((z.ahead.filter fun x => x.2 ≤ bucket).map fun x =>
    (z.data x.1).evictableChunks age z.curBucket).sum < needed

theorem Walk.Represents.trappedIn_iff [DecidableEq α] {w : Walk α} {z : Cursor α} (h : w.Represents z)
    (age needed bucket : Nat) :
    w.TrappedIn age needed bucket ↔ z.TrappedIn age needed bucket := by
  have hit : w.lru.position w.it = z.behind.length := by
    rw [h.it]
    exact position_of_cut h.lru
  have hahead : w.ahead = z.ahead.map Prod.fst := by
    rw [Walk.ahead, hit, h.lru.list, map_append]
    simp
  have hbucket : ∀ x ∈ z.ahead, w.lru.bucketOf x.1 = x.2 :=
    fun x hx => bucketOf_eq h.lru (mem_append_right _ hx)
  have hpairs := pairwise_append.1 h.lru.bucketed.sorted
  -- the end of the current bucket is behind iff a later entry is
  have hpassed : w.lru.position (w.lru.buckets[w.curBucket]?.getD none) < w.lru.position w.it ↔
      z.Passed := by
    rw [h.curBucket, h.lru.getElem?_buckets h.lt, Option.getD_some, hit, position_boundary h.lru,
      filter_append, length_append]
    constructor
    · intro hlt
      by_contra hnone
      have hall : ∀ y ∈ z.behind, y.2 ≤ z.curBucket :=
        fun y hy => Nat.le_of_not_lt fun hlt => hnone ⟨y, hy, hlt⟩
      rw [(filter_early hall).1] at hlt
      omega
    · intro ⟨y, hy, hlt⟩
      have hlate : ∀ u ∈ z.ahead, z.curBucket < u.2 :=
        fun u hu => hlt.trans_le (hpairs.2.2 y hy u hu)
      rw [(filter_late hlate).1, length_nil, Nat.add_zero, length_filter_lt_length_iff_exists]
      exact ⟨y, hy, by simpa using hlt⟩
  have htwo : (w.ahead.countP fun e => (w.data e).Intends age bucket ∧ w.lru.bucketOf e ≤ bucket) =
      z.ahead.countP fun x => (z.data x.1).Intends age bucket ∧ x.2 ≤ bucket := by
    rw [hahead, countP_map, h.data]
    apply countP_congr
    intro x hx
    simp [hbucket x hx]
  have hfilter : (w.ahead.filter fun e => w.lru.bucketOf e ≤ bucket) =
      (z.ahead.filter fun x => x.2 ≤ bucket).map Prod.fst := by
    rw [hahead, filter_map]
    congr 1
    apply filter_congr
    intro x hx
    simp [hbucket x hx]
  have hsum : ((w.ahead.filter fun e => w.lru.bucketOf e ≤ bucket).map fun e =>
      (w.data e).evictableChunks age w.curBucket).sum =
      ((z.ahead.filter fun x => x.2 ≤ bucket).map fun x =>
        (z.data x.1).evictableChunks age z.curBucket).sum := by
    rw [hfilter, map_map, h.data, h.curBucket]
    rfl
  constructor
  · intro ht
    refine ⟨hpassed.1 ht.passed, h.curBucket ▸ ht.later, htwo ▸ ht.two, ?_⟩
    rw [← hsum, ← h.reclaimed]
    exact ht.lacking
  · intro ht
    refine ⟨hpassed.2 ht.passed, h.curBucket ▸ ht.later, htwo ▸ ht.two, ?_⟩
    rw [hsum, h.reclaimed]
    exact ht.lacking

/-! ## One round -/

section

variable {age needed bucket : Nat} {z : Cursor α} {x : α × Nat} {ahead : List (α × Nat)} {entry : α}

theorem evictableChunks_eq_zero {entry : EntryData} {curBucket : Nat}
    (h : ¬ (entry.isConsumedOrStale age = true ∧ entry.lruBucketFor age ≤ curBucket)) :
    entry.evictableChunks age curBucket = 0 := by
  rw [EntryData.evictableChunks, if_neg]
  exact fun hc => h ⟨hc.1, hc.2.1⟩

def chunksUpTo (age curBucket bucket : Nat) (data : α → EntryData) (l : List (α × Nat)) : Nat :=
  ((l.filter fun x => x.2 ≤ bucket).map fun x => (data x.1).evictableChunks age curBucket).sum

/-- How many entries ahead are not beyond the bucket and are to be moved there. -/
def intending (age bucket : Nat) (data : α → EntryData) (l : List (α × Nat)) : Nat :=
  l.countP fun x => (data x.1).Intends age bucket ∧ x.2 ≤ bucket

theorem chunksUpTo_cons (curBucket : Nat) (data : α → EntryData) (x : α × Nat) (l : List (α × Nat)) :
    chunksUpTo age curBucket bucket data (x :: l) =
      (if x.2 ≤ bucket then (data x.1).evictableChunks age curBucket else 0) +
        chunksUpTo age curBucket bucket data l := by
  rw [chunksUpTo, filter_cons]
  by_cases h : x.2 ≤ bucket
  · simp [h, chunksUpTo]
  · simp [h, chunksUpTo]

variable (data : α → EntryData)

theorem intending_cons (x : α × Nat) (l : List (α × Nat)) :
    intending age bucket data (x :: l) =
      (if (data x.1).Intends age bucket ∧ x.2 ≤ bucket then 1 else 0) +
        intending age bucket data l := by
  rw [intending, countP_cons, Nat.add_comm]
  simp [intending]

variable {l : List (α × Nat)}

theorem chunksUpTo_perm (curBucket : Nat) (data : α → EntryData) {l' : List (α × Nat)}
    (h : l.Perm l') :
    chunksUpTo age curBucket bucket data l = chunksUpTo age curBucket bucket data l' :=
  ((h.filter _).map _).sum_eq

theorem intending_perm {l' : List (α × Nat)} (h : l.Perm l') :
    intending age bucket data l = intending age bucket data l' :=
  h.countP_eq _

theorem Cursor.level_of_passed (h : z.Passed) (n : Nat) : z.level n = z.curBucket := if_pos h

/-- A moved entry is ahead exactly if one up to its bucket is. -/
theorem Cursor.moveTo_cases (z : Cursor α) (entry : α) (bucket : Nat) :
    ((∃ y ∈ z.ahead, y.2 ≤ bucket) ∧
      z.moveTo entry bucket = { z with ahead := insertTail bucket entry z.ahead }) ∨
    ((∀ y ∈ z.ahead, bucket < y.2) ∧
      z.moveTo entry bucket = { z with behind := insertTail bucket entry z.behind }) := by
  rw [Cursor.moveTo]
  split
  next hex =>
    exact .inl ⟨hex, rfl⟩
  next hex =>
    exact .inr ⟨fun y hy => Nat.lt_of_not_le fun hle => hex ⟨y, hy, hle⟩, rfl⟩

variable [DecidableEq α]

theorem tryEvictRaw_of_ne (age : Nat) (data : α → EntryData) {other : α} (h : other ≠ entry) :
    (tryEvictRaw age data entry).2 other = data other := by
  rw [tryEvictRaw]
  split
  · rfl
  split
  · rfl
  · exact Function.update_of_ne h _ _

theorem tryEvictRaw_freed {data : α → EntryData} {curBucket : Nat}
    (hstale : (data entry).isConsumedOrStale age = true)
    (hle : (data entry).lruBucketFor age ≤ curBucket) :
    (tryEvictRaw age data entry).1 = (data entry).evictableChunks age curBucket := by
  rw [tryEvictRaw, EntryData.evictableChunks]
  by_cases hcached : (data entry).state = .cached
  · simp [hcached, hstale, hle]
  · simp [hcached]

theorem tryEvictRaw_ahead (age bucket curBucket : Nat) (data : α → EntryData)
    (h : entry ∉ l.map Prod.fst) :
    chunksUpTo age curBucket bucket (tryEvictRaw age data entry).2 l =
      chunksUpTo age curBucket bucket data l ∧
    intending age bucket (tryEvictRaw age data entry).2 l = intending age bucket data l := by
  have hne : ∀ x ∈ l, (tryEvictRaw age data entry).2 x.1 = data x.1 := by
    intro x hx
    apply tryEvictRaw_of_ne
    rintro rfl
    exact h (mem_map_of_mem hx)
  constructor
  · rw [chunksUpTo, chunksUpTo]
    congr 1
    apply map_congr_left
    intro x hx
    rw [hne x (mem_of_mem_filter hx)]
  · apply countP_congr
    intro x hx
    rw [hne x hx]

/-- **A trapped walk stays trapped.** -/
theorem Cursor.TrappedIn.visit (hB : Bucketed nLruBuckets (z.behind ++ x :: ahead))
    (hahead : z.ahead = x :: ahead) (ht : z.TrappedIn age needed bucket) :
    (z.visit age x ahead).TrappedIn age needed bucket := by
  have htwo : 2 ≤ intending age bucket z.data (x :: ahead) := hahead ▸ ht.two
  have hlacking : z.reclaimed + chunksUpTo age z.curBucket bucket z.data (x :: ahead) < needed :=
    hahead ▸ ht.lacking
  have hlater := ht.later
  have hpairs := pairwise_append.1 hB.sorted
  have hnodup := hB.nodup
  rw [map_append, map_cons, nodup_append, nodup_cons] at hnodup
  -- the entry is in a bucket up to the trap, as another one behind it is
  have hx : x.2 ≤ bucket := by
    have hpos : 0 < intending age bucket z.data (x :: ahead) := by omega
    obtain ⟨y, hy, hyb⟩ := countP_pos_iff.1 hpos
    simp only [decide_eq_true_eq] at hyb
    rcases mem_cons.1 hy with rfl | hy
    · exact hyb.2
    · exact ((pairwise_cons.1 hpairs.2.1).1 y hy).trans hyb.2
  rw [intending_cons] at htwo
  rw [chunksUpTo_cons, if_pos hx] at hlacking
  obtain ⟨y, hy, hyc⟩ := ht.passed
  rw [Cursor.visit, Cursor.level_of_passed ht.passed]
  split
  · -- the entry is skipped
    rename_i hstale
    have hnot : ¬ (z.data x.1).Intends age bucket := by
      intro hi
      simp [hi.1] at hstale
    rw [if_neg fun hc => hnot hc.1, Nat.zero_add] at htwo
    have hrest : z.reclaimed + chunksUpTo age z.curBucket bucket z.data ahead < needed := by omega
    exact ⟨⟨y, by simp [hy], hyc⟩, hlater, htwo, hrest⟩
  rename_i hstale
  have hstale : (z.data x.1).isConsumedOrStale age = true := by simpa using hstale
  split
  · -- the entry is evicted, or cannot be
    rename_i hle
    have hnot : ¬ (z.data x.1).Intends age bucket := by
      intro hi
      rw [hi.2] at hle
      omega
    rw [if_neg fun hc => hnot hc.1, Nat.zero_add] at htwo
    obtain ⟨hchunks, hintending⟩ :=
      tryEvictRaw_ahead age bucket z.curBucket z.data hnodup.2.1.1
    rw [← hintending] at htwo
    rw [← hchunks, ← tryEvictRaw_freed hstale hle] at hlacking
    simp only
    split
    · exact ⟨⟨y, hy, hyc⟩, hlater, htwo, by rw [Nat.add_assoc]; exact hlacking⟩
    next hfreed =>
      exact ⟨⟨y, by simp [hy], hyc⟩, hlater, htwo, by
        have : (tryEvictRaw age z.data x.1).1 = 0 := by omega
        rw [this, Nat.zero_add] at hlacking
        exact hlacking⟩
  · -- the entry is moved
    rename_i hle
    rw [evictableChunks_eq_zero fun hc => hle hc.2, Nat.zero_add] at hlacking
    have hsorted : ahead.Pairwise fun x y => x.2 ≤ y.2 := (pairwise_cons.1 hpairs.2.1).2
    rcases Cursor.moveTo_cases { z with ahead := ahead, curBucket := z.curBucket } x.1
      ((z.data x.1).lruBucketFor age) with ⟨-, hmove⟩ | ⟨hall, hmove⟩
    · -- it stays ahead, at the tail of its bucket
      have hperm := Bucketed.insertTail_perm hsorted ((z.data x.1).lruBucketFor age) x.1
      rw [hmove]
      refine ⟨⟨y, hy, hyc⟩, hlater, ?_, ?_⟩
      · show 2 ≤ intending age bucket z.data (insertTail _ _ ahead)
        rw [intending_perm _ hperm, intending_cons]
        simp only
        by_cases hi : (z.data x.1).Intends age bucket
        · rw [if_pos ⟨hi, hi.2.le⟩]
          rw [if_pos ⟨hi, hx⟩] at htwo
          exact htwo
        · rw [if_neg fun hc => hi hc.1] at htwo ⊢
          exact htwo
      · show z.reclaimed + chunksUpTo age z.curBucket bucket z.data (insertTail _ _ ahead) < needed
        rw [chunksUpTo_perm _ _ hperm, chunksUpTo_cons, evictableChunks_eq_zero fun hc => hle hc.2]
        simpa using hlacking
    · -- it goes behind the iterator, so that it does not belong to the trap
      have hnot : ¬ (z.data x.1).Intends age bucket := by
        intro hi
        have hpos : 0 < intending age bucket z.data ahead := by
          split at htwo <;> omega
        obtain ⟨u, hu, hub⟩ := countP_pos_iff.1 hpos
        simp only [decide_eq_true_eq] at hub
        have := hall u hu
        rw [hi.2] at this
        omega
      rw [if_neg fun hc => hnot hc.1, Nat.zero_add] at htwo
      rw [hmove]
      have hy' := (Bucketed.insertTail_perm hpairs.1 ((z.data x.1).lruBucketFor age) x.1).mem_iff.2
        (mem_cons_of_mem _ hy)
      exact ⟨⟨y, hy', hyc⟩, hlater, htwo, hlacking⟩

/-! ## The measure -/

/-- An entry that is still to be moved up counts twice. -/
def weight (age : Nat) (data : α → EntryData) (x : α × Nat) : Nat :=
  if (data x.1).isConsumedOrStale age = true ∧ x.2 < (data x.1).lruBucketFor age then 2 else 1

/-- For every entry in its intended bucket, the later ones that are not in theirs. -/
def displaced (age : Nat) (data : α → EntryData) : List (α × Nat) → Nat
  | [] => 0
  | x :: l =>
    (if (data x.1).Intends age x.2 then l.countP fun y => ¬ (data y.1).Intends age y.2 else 0) +
      displaced age data l

/-- What every round of an untrapped walk lowers. -/
def Cursor.measure (age : Nat) (z : Cursor α) : Nat ×ₗ Nat :=
  toLex ((z.ahead.map (weight age z.data)).sum, displaced age z.data z.ahead)

omit [DecidableEq α] in
theorem weight_pos (age : Nat) (data : α → EntryData) (x : α × Nat) : 0 < weight age data x := by
  rw [weight]
  split <;> omega

theorem weight_tryEvictRaw (entry : α) :
    weight age (tryEvictRaw age data entry).2 = weight age data := by
  funext x
  have h : (tryEvictRaw age data entry).2 x.1 = data x.1 ∨
      (tryEvictRaw age data entry).2 x.1 = { data x.1 with state := .empty, chunks := 0 } := by
    by_cases hx : x.1 = entry
    · rw [hx, tryEvictRaw]
      split
      · exact .inl rfl
      split
      · exact .inl rfl
      · exact .inr (Function.update_self ..)
    · exact .inl (tryEvictRaw_of_ne age data hx)
  rcases h with h | h
  · rw [weight, weight, h]
  · rw [weight, weight, h]
    rfl

omit [DecidableEq α] in
/-- An entry in its intended bucket that goes to its tail passes the others there. -/
theorem displaced_insertTail_lt {data : α → EntryData} {b : Nat}
    (hsorted : l.Pairwise fun x y => x.2 ≤ y.2) (hself : (data entry).Intends age b) {y : α × Nat}
    (hy : y ∈ l) (hle : y.2 ≤ b) (hother : ¬ (data y.1).Intends age y.2) :
    displaced age data (insertTail b entry l) < displaced age data ((entry, b) :: l) := by
  have happend : ∀ l₁ l₂ : List (α × Nat), displaced age data (l₁ ++ (entry, b) :: l₂) =
      displaced age data (l₁ ++ l₂) + l₂.countP fun y => ¬ (data y.1).Intends age y.2 := by
    intro l₁ l₂
    induction l₁ with
    | nil => simp [displaced, hself, Nat.add_comm]
    | cons x l₁ ih =>
      rw [cons_append, cons_append, displaced, displaced, ih]
      have hcount : (l₁ ++ (entry, b) :: l₂).countP (fun y => ¬ (data y.1).Intends age y.2) =
          (l₁ ++ l₂).countP fun y => ¬ (data y.1).Intends age y.2 := by
        simp [countP_append, hself]
      rw [hcount]
      omega
  have hcut := Bucketed.filter_append hsorted b
  have hfront : 0 < (l.filter fun x => x.2 ≤ b).countP fun y => ¬ (data y.1).Intends age y.2 :=
    countP_pos_iff.2 ⟨y, mem_filter.2 ⟨hy, by simpa using hle⟩, by simpa using hother⟩
  have hself' := happend [] l
  rw [nil_append, nil_append] at hself'
  rw [insertTail, happend, hcut, hself']
  conv_rhs => rw [← hcut, countP_append]
  rw [hcut]
  omega

/-- **Every round of an untrapped walk lowers the measure.** -/
theorem Cursor.visit_measure_lt (hB : Bucketed nLruBuckets (z.behind ++ x :: ahead))
    (hahead : z.ahead = x :: ahead) (hneeded : z.reclaimed < needed)
    (hfree : ∀ bucket, ¬ z.TrappedIn age needed bucket) :
    (z.visit age x ahead).measure age < z.measure age := by
  have hpairs := pairwise_append.1 hB.sorted
  obtain ⟨hafter, hsorted⟩ := pairwise_cons.1 hpairs.2.1
  -- an entry less ahead
  have hless : ∀ z' : Cursor α, z'.ahead = ahead → weight age z'.data = weight age z.data →
      z'.measure age < z.measure age := by
    intro z' hz' hweight
    apply Prod.Lex.toLex_lt_toLex.2
    left
    show (z'.ahead.map (weight age z'.data)).sum < (z.ahead.map (weight age z.data)).sum
    rw [hz', hweight, hahead, map_cons, sum_cons]
    have := weight_pos age z.data x
    omega
  rw [Cursor.visit]
  split
  · exact hless _ rfl rfl
  rename_i hstale
  have hstale : (z.data x.1).isConsumedOrStale age = true := by simpa using hstale
  split
  · simp only
    split
    · exact hless _ rfl (weight_tryEvictRaw z.data x.1)
    · exact hless _ rfl (weight_tryEvictRaw z.data x.1)
  rename_i hlevel
  rcases Cursor.moveTo_cases { z with ahead := ahead, curBucket := z.level x.2 } x.1
    ((z.data x.1).lruBucketFor age) with ⟨⟨y, hy, hyle⟩, hmove⟩ | ⟨-, hmove⟩
  · -- the entry stays ahead
    have hperm := Bucketed.insertTail_perm hsorted ((z.data x.1).lruBucketFor age) x.1
    have hweight : weight age z.data (x.1, (z.data x.1).lruBucketFor age) = 1 := by
      rw [weight, if_neg fun hc => Nat.lt_irrefl _ hc.2]
    apply Prod.Lex.toLex_lt_toLex.2
    rw [hmove, hahead]
    simp only
    rw [((hperm.map _).sum_eq : _ = _), map_cons, sum_cons, hweight, map_cons,
      sum_cons]
    have hxy : x.2 ≤ (z.data x.1).lruBucketFor age := (hafter y hy).trans hyle
    rcases Nat.lt_or_eq_of_le hxy with hlt | heq
    · -- it comes to a later bucket
      left
      rw [weight, if_pos ⟨hstale, hlt⟩]
      omega
    · -- it is in its intended bucket already, so the end of the current one has been passed
      right
      have hpassed : z.Passed := by
        by_contra hnone
        rw [Cursor.level, if_neg hnone] at hlevel
        omega
      rw [Cursor.level_of_passed hpassed] at hlevel
      have hself : (z.data x.1).Intends age ((z.data x.1).lruBucketFor age) := ⟨hstale, rfl⟩
      refine ⟨by rw [weight, if_neg fun hc => by omega], ?_⟩
      have hx : x = (x.1, (z.data x.1).lruBucketFor age) := Prod.ext rfl heq
      -- an entry of the bucket that is not intended for it
      obtain ⟨u, hu, hule, hother⟩ : ∃ u ∈ ahead, u.2 ≤ (z.data x.1).lruBucketFor age ∧
          ¬ (z.data u.1).Intends age u.2 := by
        by_contra hnone
        push Not at hnone
        apply hfree ((z.data x.1).lruBucketFor age)
        refine ⟨hpassed, Nat.lt_of_not_le hlevel, ?_, ?_⟩
        · show 2 ≤ intending age _ z.data z.ahead
          have hpos : 0 < intending age ((z.data x.1).lruBucketFor age) z.data ahead := by
            refine countP_pos_iff.2 ⟨y, hy, ?_⟩
            have hy' := hnone y hy hyle
            have hyx : y.2 = (z.data x.1).lruBucketFor age := by
              have := hafter y hy
              omega
            rw [hyx] at hy'
            simpa using ⟨hy', hyle⟩
          rw [hahead, intending_cons, if_pos ⟨hself, heq.le⟩]
          omega
        · show z.reclaimed + chunksUpTo age z.curBucket _ z.data z.ahead < needed
          have hzero : chunksUpTo age z.curBucket ((z.data x.1).lruBucketFor age) z.data ahead = 0 := by
            apply sum_eq_zero
            intro c hc
            obtain ⟨u, hu, rfl⟩ := mem_map.1 hc
            obtain ⟨hu, hule⟩ := mem_filter.1 hu
            simp only [decide_eq_true_eq] at hule
            have hintends := hnone u hu hule
            apply evictableChunks_eq_zero
            intro hevict
            have := hafter u hu
            rw [hintends.2] at hevict
            omega
          rw [hahead, chunksUpTo_cons, hzero, evictableChunks_eq_zero fun hc => hlevel hc.2]
          simpa using hneeded
      rw [show displaced age z.data (x :: ahead) =
        displaced age z.data ((x.1, (z.data x.1).lruBucketFor age) :: ahead) by rw [← hx]]
      exact displaced_insertTail_lt hsorted hself hu hule hother
  · rw [hmove]
    exact hless _ rfl rfl

end

/-! ## The walk -/

variable [DecidableEq α]

theorem Walk.TrappedIn.runs_on {w : Walk α} {z : Cursor α} (h : w.Represents z)
    {age needed bucket : Nat} (ht : w.TrappedIn age needed bucket) :
    ¬ Ends (Walk.step age needed) w := by
  apply Lib.not_ends (P := fun w : Walk α => ∃ z, w.Represents z ∧ z.TrappedIn age needed bucket)
    ⟨z, h, (h.trappedIn_iff age needed bucket).1 ht⟩
  intro w ⟨z, h, ht⟩
  cases hahead : z.ahead with
  | nil =>
    have htwo := ht.two
    rw [hahead] at htwo
    simp at htwo
  | cons x ahead =>
    have hneeded : z.reclaimed < needed := (Nat.le_add_right _ _).trans_lt ht.lacking
    have hstep := Cursor.step_eq_some_iff.2 ⟨x, ahead, hahead, hneeded, (rfl : z.visit age x ahead = _)⟩
    rcases walk_simulates age needed w z h with ⟨-, hz⟩ | ⟨w', z', hw', hz', h'⟩
    · cases hstep.symm.trans hz
    · cases hstep.symm.trans hz'
      have hB := h.lru.bucketed
      rw [hahead] at hB
      exact ⟨w', hw', _, h', ht.visit hB hahead⟩

/-- **A walk over a reachable list ends iff it is never trapped.** -/
theorem walk_ends_iff {lru : Lru α} (hlru : lru.Reachable) (data : α → EntryData)
    (age needed reclaimed : Nat) :
    Ends (Walk.step age needed) (Walk.start lru data reclaimed) ↔
      ∀ w, Reaches (Walk.step age needed) (Walk.start lru data reclaimed) w →
        ¬ w.Trapped age needed := by
  obtain ⟨B, hB⟩ := hlru.exists_represents
  have hstart := start_represents hB data reclaimed
  have hsim := walk_simulates (α := α) age needed
  constructor
  · intro hends w hreach ⟨bucket, ht⟩
    obtain ⟨z, -, hz⟩ := hsim.reaches hstart hreach
    exact ht.runs_on hz (hends.of_reaches hreach)
  · intro hfree
    apply hsim.symm.ends hstart
    apply ends_of_measure (Cursor.measure age)
    intro z z' hreach hstep
    obtain ⟨w, hw, hwz⟩ := hsim.symm.reaches hstart hreach
    obtain ⟨x, ahead, hahead, hneeded, rfl⟩ := Cursor.step_eq_some_iff.1 hstep
    have hBz := hwz.lru.bucketed
    rw [hahead] at hBz
    apply Cursor.visit_measure_lt hBz hahead hneeded
    intro bucket ht
    exact hfree w hw ⟨bucket, (hwz.trappedIn_iff age needed bucket).2 ht⟩

/-! ## Two walks -/

/-- At age 5 all three entries have been read. The first has been requested twice, which asks for
bucket 1, the others five times, which asks for the last bucket. -/
def readEntries (entry : Nat) : EntryData where
  nTotalRequest := if entry = 0 then 2 else 5
  requestTs := 5
  consumptionTs := 5
  state := .cached
  chunks := 1

def filedEntries : Lru Nat := ((Lru.initial.insert 0 0).insert 1 4).insert 2 4

theorem filedEntries_reachable : filedEntries.Reachable :=
  ((Lru.Reachable.initial.insert (by decide) (by decide)).insert (by decide) (by decide)).insert
    (by decide) (by decide)

/-- At age 6 the first entry belongs where it is. It is evicted, and the walk ends. -/
theorem walk_ends_before_trap :
    filedEntries.Reachable ∧
    ∀ w, Reaches (Walk.step 6 1) (Walk.start filedEntries readEntries 0) w → ¬ w.Trapped 6 1 := by
  refine ⟨filedEntries_reachable, (walk_ends_iff filedEntries_reachable readEntries 6 1 0).1 ?_⟩
  obtain ⟨w, hrun, hend⟩ : ∃ w, Run (fun w (_ : Unit) => Walk.step 6 1 w) (fun _ _ => true = true)
      (Walk.start filedEntries readEntries 0) w ∧ (Walk.step 6 1 w).isNone = true := by
    apply Run.exists_of_runLabels [()]
    decide
  exact ⟨w, hrun.mono fun _ _ _ => trivial, Option.isNone_iff_eq_none.1 hend⟩

/-- At age 5 the first entry is moved to the empty bucket 1, behind the iterator, and the other two are
moved to the tail of their own bucket for ever. -/
theorem walk_never_ends :
    filedEntries.Reachable ∧
    ¬ Ends (Walk.step 5 1) (Walk.start filedEntries readEntries 0) := by
  refine ⟨filedEntries_reachable, ?_⟩
  obtain ⟨w, hrun, hpassed, hlater, htwo, hlacking⟩ : ∃ w,
      Run (fun w (_ : Unit) => Walk.step 5 1 w) (fun _ _ => true = true)
        (Walk.start filedEntries readEntries 0) w ∧
      w.lru.position (w.lru.buckets[w.curBucket]?.getD none) < w.lru.position w.it ∧
      w.curBucket < 4 ∧
      2 ≤ (w.ahead.countP fun e => (w.data e).Intends 5 4 ∧ w.lru.bucketOf e ≤ 4) ∧
      w.reclaimed + ((w.ahead.filter fun e => w.lru.bucketOf e ≤ 4).map fun e =>
        (w.data e).evictableChunks 5 w.curBucket).sum < 1 := by
    apply Run.exists_of_runLabels [()]
    decide
  have hreach : Reaches (Walk.step 5 1) (Walk.start filedEntries readEntries 0) w :=
    hrun.mono fun _ _ _ => trivial
  obtain ⟨B, hB⟩ := filedEntries_reachable.exists_represents
  obtain ⟨z, -, hz⟩ := (walk_simulates 5 1).reaches (start_represents hB readEntries 0) hreach
  intro hends
  exact Walk.TrappedIn.runs_on hz ⟨hpassed, hlater, htwo, hlacking⟩ (hends.of_reaches hreach)

end Sirius.Cache
