import Mathlib.Data.List.Induction
import Mathlib.Data.List.TakeWhile

/-!
# Inserting byte ranges into the prefetching cache

`prefetching_cache::insert` (`src/io/prefetching_cache.cpp`) merges the byte ranges of one call into the
entries of a file, both sorted by offset. A range that meets an entry of its own offset reuses that
entry, whatever its size; any other range becomes a new entry. `find_entry` looks a range up in the one
entry that stands last below or at its offset.

An insertion keeps the entries sorted. At one offset `o` it leaves the entries that were there and adds
the ranges that are more than they were, so that the sizes at `o` are

    existing ++ requested.drop existing.length

The last of them alone decides whether the ranges at `o` are found.
-/

namespace Sirius.Cache

open List

/-- `cudf::io::text::byte_range_info`, which admits no negative offset or size. -/
structure ByteRange where
  offset : Nat
  size : Nat
  deriving DecidableEq, Repr

def ByteRange.stop (r : ByteRange) : Nat := r.offset + r.size

/-- The fields of a `cache_entry` that `insert` writes. -/
structure CacheEntry where
  logicalRange : ByteRange
  physicalRange : ByteRange
  chunkBytes : Nat
  nTotalRequest : Int := 0
  nRequest : Int := 0
  requestTs : Nat := 0
  deriving DecidableEq, Repr

/-- An existing entry is requested once more in the epoch `tick`. -/
def CacheEntry.request (tick : Nat) (e : CacheEntry) : CacheEntry :=
  { e with
    nTotalRequest := e.nTotalRequest + 1
    nRequest := if e.requestTs = tick then e.nRequest + 1 else 1
    requestTs := tick }

/-- `find_entry`: the last entry that starts at or before the offset, if it covers the range. The search
is `std::upper_bound`, the first entry behind the offset. -/
def findEntry (entries : List CacheEntry) (offset size : Nat) : Option CacheEntry :=
  let pos := entries.findIdx fun e => offset < e.logicalRange.offset
  if pos = 0 then none
  else
    match entries[pos - 1]? with
    | none => none
    | some e =>
      if e.logicalRange.stop ≤ offset then none
      else if e.logicalRange.stop < offset + size then none
      else some e

structure FileEntry (M : Type*) where
  fileSize : Nat := 0
  metadata : Option M := none
  entries : List CacheEntry := []
  deriving DecidableEq, Repr

/-- The arguments of one call of `insert` and the cache age it samples. -/
structure InsertCall (M : Type*) where
  fileSize : Nat
  metadata : Option M
  tick : Nat
  ranges : List ByteRange
  deriving DecidableEq, Repr

section

variable {M : Type*} (computePhysicalRange : ByteRange → Nat → ByteRange) (chunkBytes : Nat)

def newEntry (fileSize tick : Nat) (logical : ByteRange) : CacheEntry where
  logicalRange := logical
  physicalRange := computePhysicalRange logical fileSize
  chunkBytes := chunkBytes
  nTotalRequest := 1
  nRequest := 1
  requestTs := tick

/-- The loop over the ranges, with the existing entries from `ex_it` on: the merged entries and those
that the call requests. -/
def mergeRanges (fileSize tick : Nat) :
    List CacheEntry → List ByteRange → List CacheEntry × List CacheEntry
  | existing, [] => (existing, [])
  | existing, logical :: ranges =>
    let passed := existing.takeWhile fun e => e.logicalRange.offset < logical.offset
    match existing.dropWhile fun e => e.logicalRange.offset < logical.offset with
    | [] =>
      let e := newEntry computePhysicalRange chunkBytes fileSize tick logical
      let (merged, requested) := mergeRanges fileSize tick [] ranges
      (passed ++ e :: merged, e :: requested)
    | next :: rest =>
      if next.logicalRange.offset = logical.offset then
        let e := next.request tick
        let (merged, requested) := mergeRanges fileSize tick rest ranges
        (passed ++ e :: merged, e :: requested)
      else
        let e := newEntry computePhysicalRange chunkBytes fileSize tick logical
        let (merged, requested) := mergeRanges fileSize tick (next :: rest) ranges
        (passed ++ e :: merged, e :: requested)

/-- `insert` on the file: its new data, and the entries that are queued for prefetching. -/
def insert (file : FileEntry M) (call : InsertCall M) : FileEntry M × List CacheEntry :=
  let (merged, requested) :=
    mergeRanges computePhysicalRange chunkBytes call.fileSize call.tick file.entries call.ranges
  ({ fileSize := call.fileSize, metadata := call.metadata.or file.metadata, entries := merged },
    requested)

def insertAll (calls : List (InsertCall M)) : FileEntry M :=
  calls.foldl (fun file call => (insert computePhysicalRange chunkBytes file call).1) {}

end

/-! ## Sizes at an offset -/

/-- Ranges in the order that `insert` asserts. -/
def Sorted (ranges : List ByteRange) : Prop :=
  ranges.Pairwise fun a b => a.offset ≤ b.offset

instance (ranges : List ByteRange) : Decidable (Sorted ranges) :=
  inferInstanceAs (Decidable (ranges.Pairwise _))

def logicalRanges (entries : List CacheEntry) : List ByteRange :=
  entries.map CacheEntry.logicalRange

/-- The sizes of the ranges that start at `offset`, in order. -/
def sizesAt (offset : Nat) (ranges : List ByteRange) : List Nat :=
  (ranges.filter fun r => r.offset = offset).map ByteRange.size

/-- The size of the last range at an offset when `requested` sizes meet `existing` ones there. -/
def servingSize (existing requested : List Nat) : Option Nat :=
  (existing ++ requested.drop existing.length).getLast?

@[simp] theorem sizesAt_nil (o : Nat) : sizesAt o [] = [] := rfl

theorem sizesAt_append (o : Nat) (l l' : List ByteRange) :
    sizesAt o (l ++ l') = sizesAt o l ++ sizesAt o l' := by
  simp only [sizesAt, filter_append, map_append]

theorem sizesAt_cons_self (r : ByteRange) (l : List ByteRange) :
    sizesAt r.offset (r :: l) = r.size :: sizesAt r.offset l := by
  simp [sizesAt]

variable {o : Nat} {r : ByteRange}

theorem sizesAt_cons_of_ne (h : r.offset ≠ o) (l : List ByteRange) :
    sizesAt o (r :: l) = sizesAt o l := by
  simp [sizesAt, h]

variable {l : List ByteRange}

theorem sizesAt_eq_nil (h : ∀ r ∈ l, r.offset ≠ o) : sizesAt o l = [] := by
  rw [sizesAt, map_eq_nil_iff, filter_eq_nil_iff]
  intro r hr
  simpa using h r hr

/-- Behind a range of a sorted list no offset is smaller. -/
theorem Sorted.le (h : Sorted (r :: l)) : ∀ a ∈ l, r.offset ≤ a.offset :=
  (pairwise_cons.1 h).1

theorem Sorted.tail (h : Sorted (r :: l)) : Sorted l :=
  (pairwise_cons.1 h).2

/-! ## The merge of the ranges

The counters have no influence on which ranges the entries have. -/

def mergeLogical : List ByteRange → List ByteRange → List ByteRange
  | existing, [] => existing
  | existing, r :: ranges =>
    (existing.takeWhile fun a => a.offset < r.offset) ++
      match existing.dropWhile fun a => a.offset < r.offset with
      | [] => r :: mergeLogical [] ranges
      | next :: rest =>
        if next.offset = r.offset then next :: mergeLogical rest ranges
        else r :: mergeLogical (next :: rest) ranges

theorem logicalRanges_mergeRanges (physical : ByteRange → Nat → ByteRange)
    (chunkBytes fileSize tick : Nat) (existing : List CacheEntry) (ranges : List ByteRange) :
    logicalRanges (mergeRanges physical chunkBytes fileSize tick existing ranges).1 =
      mergeLogical (logicalRanges existing) ranges := by
  induction ranges generalizing existing with
  | nil => rfl
  | cons r ranges ih =>
    have hpassed : (logicalRanges existing).takeWhile (fun a => a.offset < r.offset) =
        logicalRanges (existing.takeWhile fun e => e.logicalRange.offset < r.offset) :=
      takeWhile_map ..
    have hrest : (logicalRanges existing).dropWhile (fun a => a.offset < r.offset) =
        logicalRanges (existing.dropWhile fun e => e.logicalRange.offset < r.offset) :=
      dropWhile_map ..
    rw [mergeLogical, hpassed, hrest, mergeRanges]
    cases existing.dropWhile fun e => e.logicalRange.offset < r.offset with
    | nil =>
      have h := ih []
      simp only [logicalRanges, map_append, map_cons, map_nil] at h ⊢
      rw [h]
      rfl
    | cons next rest =>
      simp only [logicalRanges, map_cons]
      split
      · have h := ih rest
        simp only [logicalRanges, map_append, map_cons] at h ⊢
        rw [h]
        rfl
      · have h := ih (next :: rest)
        simp only [logicalRanges, map_append, map_cons] at h ⊢
        rw [h]
        rfl

/-- What the merge needs of the two parts of the existing ranges: those before `r` start before it,
the others do not. -/
theorem exists_split (existing : List ByteRange) (hsorted : Sorted existing) (r : ByteRange) :
    ∃ passed rest, existing = passed ++ rest ∧ Sorted passed ∧ Sorted rest ∧
      (∀ a ∈ passed, a.offset < r.offset) ∧ (∀ a ∈ rest, r.offset ≤ a.offset) ∧
      ∀ ranges, mergeLogical existing (r :: ranges) = passed ++
        match rest with
        | [] => r :: mergeLogical [] ranges
        | next :: rest =>
          if next.offset = r.offset then next :: mergeLogical rest ranges
          else r :: mergeLogical (next :: rest) ranges := by
  refine ⟨existing.takeWhile fun a => a.offset < r.offset,
    existing.dropWhile fun a => a.offset < r.offset, takeWhile_append_dropWhile.symm,
    hsorted.sublist (takeWhile_sublist _), hsorted.sublist (dropWhile_sublist _),
    ?_, ?_, fun ranges => rfl⟩
  · intro a ha
    simpa using mem_takeWhile_imp ha
  · have hrest : Sorted (existing.dropWhile fun a => a.offset < r.offset) :=
      hsorted.sublist (dropWhile_sublist _)
    intro a ha
    cases hdrop : existing.dropWhile fun a => a.offset < r.offset with
    | nil => simp [hdrop] at ha
    | cons next rest =>
      have hnext : r.offset ≤ next.offset := by
        have h := dropWhile_get_zero_not (fun a : ByteRange => a.offset < r.offset) existing
          (by simp [hdrop])
        simpa [hdrop] using h
      rw [hdrop] at ha hrest
      rcases mem_cons.1 ha with rfl | ha
      · exact hnext
      · exact hnext.trans (hrest.le a ha)

variable {existing ranges : List ByteRange}

theorem exists_offset_of_mem_mergeLogical (hsorted : Sorted existing) {a : ByteRange}
    (ha : a ∈ mergeLogical existing ranges) : ∃ b ∈ existing ++ ranges, a.offset = b.offset := by
  induction ranges generalizing existing with
  | nil => exact ⟨a, by simpa [mergeLogical] using ha, rfl⟩
  | cons r ranges ih =>
    obtain ⟨passed, rest, rfl, -, hrest, -, -, hmerge⟩ := exists_split existing hsorted r
    rw [hmerge] at ha
    rcases mem_append.1 ha with ha | ha
    · exact ⟨a, by simp [ha], rfl⟩
    cases rest with
    | nil =>
      rcases mem_cons.1 ha with rfl | ha
      · exact ⟨a, by simp, rfl⟩
      · obtain ⟨b, hb, hab⟩ := ih List.Pairwise.nil ha
        exact ⟨b, by grind, hab⟩
    | cons next rest =>
      simp only at ha
      split at ha
      · rcases mem_cons.1 ha with rfl | ha
        · exact ⟨a, by simp, rfl⟩
        · obtain ⟨b, hb, hab⟩ := ih hrest.tail ha
          exact ⟨b, by grind, hab⟩
      · rcases mem_cons.1 ha with rfl | ha
        · exact ⟨a, by simp, rfl⟩
        · obtain ⟨b, hb, hab⟩ := ih hrest ha
          exact ⟨b, by grind, hab⟩

theorem sorted_mergeLogical (hexisting : Sorted existing) (hranges : Sorted ranges) :
    Sorted (mergeLogical existing ranges) := by
  induction ranges generalizing existing with
  | nil => exact hexisting
  | cons r ranges ih =>
    obtain ⟨passed, rest, rfl, hpassed, hrest, hlt, hle, hmerge⟩ := exists_split existing hexisting r
    rw [hmerge]
    -- from `r` on nothing starts before it
    have hbehind : ∀ (x : ByteRange) (rest' : List ByteRange), x.offset = r.offset → Sorted rest' →
        (∀ a ∈ rest', r.offset ≤ a.offset) → Sorted (passed ++ x :: mergeLogical rest' ranges) := by
      intro x rest' hx hrest' hle'
      have hmem : ∀ a ∈ mergeLogical rest' ranges, r.offset ≤ a.offset := by
        intro a ha
        obtain ⟨b, hb, hab⟩ := exists_offset_of_mem_mergeLogical hrest' ha
        rw [hab]
        rcases mem_append.1 hb with hb | hb
        · exact hle' b hb
        · exact hranges.le b hb
      apply pairwise_append.2
      refine ⟨hpassed, pairwise_cons.2 ⟨?_, ih hrest' hranges.tail⟩, ?_⟩
      · intro a ha
        rw [hx]
        exact hmem a ha
      · intro a ha b hb
        apply (hlt a ha).le.trans
        rcases mem_cons.1 hb with rfl | hb
        · exact hx.ge
        · exact hmem b hb
    cases rest with
    | nil => exact hbehind r [] rfl List.Pairwise.nil (by simp)
    | cons next rest =>
      simp only
      split
      next hnext =>
        exact hbehind next rest hnext hrest.tail fun a ha => hle a (.tail _ ha)
      · exact hbehind r (next :: rest) rfl hrest hle

/-- At each offset the existing sizes stay and the surplus of the requested ones is added. -/
theorem sizesAt_mergeLogical (hexisting : Sorted existing) (hranges : Sorted ranges) (o : Nat) :
    sizesAt o (mergeLogical existing ranges) =
      sizesAt o existing ++ (sizesAt o ranges).drop (sizesAt o existing).length := by
  induction ranges generalizing existing with
  | nil => simp [mergeLogical]
  | cons r ranges ih =>
    obtain ⟨passed, rest, rfl, -, hrest, hlt, hle, hmerge⟩ := exists_split existing hexisting r
    rw [hmerge, sizesAt_append, sizesAt_append]
    by_cases ho : r.offset = o
    · -- the passed ranges are all before `o`, and the rest starts at `o` or behind it
      subst ho
      rw [sizesAt_eq_nil (fun a ha => (hlt a ha).ne), nil_append, nil_append,
        sizesAt_cons_self]
      cases rest with
      | nil => simp [sizesAt_cons_self, ih List.Pairwise.nil hranges.tail]
      | cons next rest =>
        simp only
        split
        next hnext =>
          rw [← hnext, sizesAt_cons_self, sizesAt_cons_self, hnext, ih hrest.tail hranges.tail]
          rfl
        next hnext =>
          have hnone : sizesAt r.offset (next :: rest) = [] := by
            apply sizesAt_eq_nil
            intro a ha
            have hpos := hle next (.head _)
            rcases mem_cons.1 ha with rfl | ha
            · exact hnext
            · have := hrest.le a ha
              omega
          rw [sizesAt_cons_self, ih hrest hranges.tail, hnone]
          rfl
    · rw [sizesAt_cons_of_ne ho, append_assoc]
      have hdrop : (sizesAt o ranges).drop (sizesAt o passed ++ sizesAt o rest).length =
          (sizesAt o ranges).drop (sizesAt o rest).length := by
        by_cases hbefore : o < r.offset
        · rw [sizesAt_eq_nil (l := ranges) fun a ha => by have := hranges.le a ha; omega]
          simp
        · rw [sizesAt_eq_nil (l := passed) fun a ha => by have := hlt a ha; omega]
          rfl
      rw [hdrop]
      congr 1
      cases rest with
      | nil =>
        rw [sizesAt_cons_of_ne ho, ih List.Pairwise.nil hranges.tail]
      | cons next rest =>
        simp only
        split
        next hnext =>
          rw [sizesAt_cons_of_ne (hnext ▸ ho), sizesAt_cons_of_ne (hnext ▸ ho),
            ih hrest.tail hranges.tail]
        · rw [sizesAt_cons_of_ne ho, ih hrest hranges.tail]

/-! ## Looking a range up -/

/-- The last range at an offset, with what stands before and behind it in sorted entries. -/
theorem exists_last_at {entries : List CacheEntry} (hsorted : Sorted (logicalRanges entries))
    {s : Nat} (hlast : s ∈ (sizesAt o (logicalRanges entries)).getLast?) :
    ∃ front e behind, entries = front ++ e :: behind ∧ e.logicalRange = ⟨o, s⟩ ∧
      (∀ a ∈ front, a.logicalRange.offset ≤ o) ∧ ∀ a ∈ behind, o < a.logicalRange.offset := by
  have hfilter : sizesAt o (logicalRanges entries) =
      (entries.filter fun e => e.logicalRange.offset = o).map fun e => e.logicalRange.size := by
    rw [sizesAt, logicalRanges, filter_map, map_map]
    rfl
  rw [hfilter, getLast?_map, Option.mem_def, Option.map_eq_some_iff] at hlast
  obtain ⟨e, he, hsize⟩ := hlast
  -- the last entry of the filtered list is the first one found from behind
  rw [← head?_reverse, ← filter_reverse, head?_filter, find?_eq_some_iff_append]
    at he
  obtain ⟨hoffset, behind, front, hentries, hbehind⟩ := he
  have hoffset : e.logicalRange.offset = o := by simpa using hoffset
  have hentries : entries = front.reverse ++ e :: behind.reverse := by
    rw [← reverse_reverse entries, hentries]
    simp
  subst hentries
  have hpairs := pairwise_append.1 (pairwise_map.1 hsorted)
  refine ⟨front.reverse, e, behind.reverse, rfl, ?_, ?_, ?_⟩
  · rw [← hoffset, ← hsize]
  · intro a ha
    rw [← hoffset]
    exact hpairs.2.2 a ha e (.head _)
  · intro a ha
    have hle := (pairwise_cons.1 hpairs.2.1).1 a ha
    have hne : a.logicalRange.offset ≠ o := by simpa using hbehind a (mem_reverse.1 ha)
    omega

theorem findEntry_eq {front behind : List CacheEntry} {e : CacheEntry} (size : Nat)
    (hfront : ∀ a ∈ front, a.logicalRange.offset ≤ o) (he : e.logicalRange.offset ≤ o)
    (hbehind : ∀ a ∈ behind, o < a.logicalRange.offset) :
    findEntry (front ++ e :: behind) o size =
      if e.logicalRange.stop ≤ o then none
      else if e.logicalRange.stop < o + size then none
      else some e := by
  have hnone : front.findIdx (fun a => o < a.logicalRange.offset) = front.length := by
    apply findIdx_eq_length_of_false
    intro a ha
    simpa using hfront a ha
  have hstart : behind.findIdx (fun a => o < a.logicalRange.offset) = 0 := by
    cases behind with
    | nil => rfl
    | cons a behind => simp [findIdx_cons, hbehind a (.head _)]
  have hpos : (front ++ e :: behind).findIdx (fun a => o < a.logicalRange.offset) =
      front.length + 1 := by
    rw [findIdx_append, hnone, if_neg (lt_irrefl _), findIdx_cons]
    simp [hstart, he.not_gt]
    omega
  simp [findEntry, hpos]

/-- A range that starts where entries do is found iff the last of these is not empty and as long as the
range. -/
theorem findEntry_iff {entries : List CacheEntry} (hsorted : Sorted (logicalRanges entries))
    {s : Nat} (hlast : s ∈ (sizesAt r.offset (logicalRanges entries)).getLast?) :
    (∃ e, findEntry entries r.offset r.size = some e ∧ e.logicalRange.offset ≤ r.offset ∧
      r.stop ≤ e.logicalRange.stop) ↔ 0 < s ∧ r.size ≤ s := by
  obtain ⟨front, e, behind, rfl, he, hfront, hbehind⟩ := exists_last_at hsorted hlast
  have hstop : e.logicalRange.stop = r.offset + s := by rw [he]; rfl
  have hoffset : e.logicalRange.offset = r.offset := by rw [he]
  rw [findEntry_eq r.size hfront hoffset.le hbehind, hstop]
  constructor
  · rintro ⟨found, hfound, -, -⟩
    split at hfound
    · cases hfound
    split at hfound
    · cases hfound
    omega
  · intro ⟨hpos, hle⟩
    refine ⟨e, ?_, hoffset.le, ?_⟩
    · rw [if_neg (by omega), if_neg (by omega)]
    · rw [hstop, ByteRange.stop]
      omega

/-! ## Sequences of calls -/

section

variable {M : Type*} (computePhysicalRange : ByteRange → Nat → ByteRange) (chunkBytes : Nat)

theorem logicalRanges_insert (file : FileEntry M) (call : InsertCall M) :
    logicalRanges (insert computePhysicalRange chunkBytes file call).1.entries =
      mergeLogical (logicalRanges file.entries) call.ranges :=
  logicalRanges_mergeRanges ..

theorem sorted_insertAll {calls : List (InsertCall M)} (hcalls : ∀ call ∈ calls, Sorted call.ranges) :
    Sorted (logicalRanges (insertAll computePhysicalRange chunkBytes calls).entries) := by
  induction calls using reverseRecOn with
  | nil => exact List.Pairwise.nil
  | append_singleton calls call ih =>
    rw [insertAll, foldl_append, foldl_cons, foldl_nil, logicalRanges_insert]
    apply sorted_mergeLogical
    · exact ih fun c hc => hcalls c (by simp [hc])
    · exact hcalls call (by simp)

/-- After any sequence of calls the entries are sorted, and a range of the next call is found iff the
range that will stand last at its offset is not empty and as long. -/
theorem insert_serves_iff (calls : List (InsertCall M)) (call : InsertCall M)
    (hcalls : ∀ c ∈ calls ++ [call], Sorted c.ranges) :
    let before := (insertAll computePhysicalRange chunkBytes calls).entries
    let after := (insertAll computePhysicalRange chunkBytes (calls ++ [call])).entries
    Sorted (logicalRanges after) ∧
    ∀ r ∈ call.ranges,
      (∃ e, findEntry after r.offset r.size = some e ∧ e.logicalRange.offset ≤ r.offset ∧
        r.stop ≤ e.logicalRange.stop) ↔
      ∃ size ∈ servingSize (sizesAt r.offset (logicalRanges before)) (sizesAt r.offset call.ranges),
        0 < size ∧ r.size ≤ size := by
  intro before after
  have hsorted : Sorted (logicalRanges after) :=
    sorted_insertAll computePhysicalRange chunkBytes hcalls
  have hbefore : Sorted (logicalRanges before) :=
    sorted_insertAll computePhysicalRange chunkBytes fun c hc => hcalls c (by simp [hc])
  have hafter : logicalRanges after = mergeLogical (logicalRanges before) call.ranges := by
    show logicalRanges (insertAll computePhysicalRange chunkBytes (calls ++ [call])).entries = _
    rw [insertAll, foldl_append, foldl_cons, foldl_nil, logicalRanges_insert]
    rfl
  refine ⟨hsorted, ?_⟩
  intro r hr
  have hserving : (sizesAt r.offset (logicalRanges after)).getLast? =
      servingSize (sizesAt r.offset (logicalRanges before)) (sizesAt r.offset call.ranges) := by
    rw [hafter, sizesAt_mergeLogical hbefore (hcalls call (by simp))]
    rfl
  rw [← hserving]
  cases hlast : (sizesAt r.offset (logicalRanges after)).getLast? with
  | none =>
    -- the range of the call itself is in the way
    exfalso
    have hmem : r.size ∈ sizesAt r.offset call.ranges :=
      mem_map.2 ⟨r, by simp [hr], rfl⟩
    rw [getLast?_eq_none_iff, hafter, sizesAt_mergeLogical hbefore (hcalls call (by simp)),
      append_eq_nil_iff] at hlast
    obtain ⟨hexisting, hsurplus⟩ := hlast
    rw [hexisting, length_nil, drop_zero] at hsurplus
    rw [hsurplus] at hmem
    exact not_mem_nil hmem
  | some size =>
    rw [findEntry_iff hsorted hlast]
    constructor
    · intro h
      exact ⟨size, rfl, h⟩
    · intro ⟨other, hother, h⟩
      cases hother
      exact h

end

/-- Two scans of one file that ask for the same range, and for one behind it. -/
theorem insert_serves_repeated :
    let calls : List (InsertCall Unit) := [⟨100, none, 1, [⟨0, 4⟩, ⟨10, 20⟩]⟩]
    let call : InsertCall Unit := ⟨100, none, 2, [⟨0, 4⟩, ⟨10, 20⟩, ⟨40, 8⟩]⟩
    let after := (insertAll (fun r _ => r) 64 (calls ++ [call])).entries
    Sorted (logicalRanges after) ∧
    ∀ r ∈ call.ranges, ∃ e, findEntry after r.offset r.size = some e ∧
      e.logicalRange.offset ≤ r.offset ∧ r.stop ≤ e.logicalRange.stop := by
  intro calls call after
  have h := insert_serves_iff (fun r _ => r) 64 calls call (by decide)
  exact ⟨h.1, fun r hr => (h.2 r hr).2 (by revert r; decide)⟩

/-- A second scan that reads more columns asks for a longer range at the same offset. The entry of the
first scan stands in its way. -/
theorem longer_range_not_served :
    let calls : List (InsertCall Unit) := [⟨100, none, 1, [⟨4, 10⟩]⟩]
    let call : InsertCall Unit := ⟨100, none, 2, [⟨4, 20⟩]⟩
    Sorted call.ranges ∧
    findEntry (insertAll (fun r _ => r) 64 (calls ++ [call])).entries 4 20 = none := by
  decide

end Sirius.Cache
