import Sirius.Cache.EvictionEnd

/-!
# Whole runs of the eviction list

The evictor thread files candidates into `_lru_list`, ages its buckets and walks through it, in any
order (`evictor_loop`, `drain_candidates_into_lru` and the `lru_*` functions in
`src/io/prefetching_cache.cpp`). The nodes of the list have an identity of their own here: that no entry
has two of them is a result, due to the flag `in_lru` of the entries.

Other threads change the entries at any time. Each round of a walk therefore comes with the values that
it finds, and `try_evict_raw` with those that it finds after them.
-/

namespace Sirius.Cache

open Lib List Function

variable {α : Type} [DecidableEq α]

/-! ## The evictor thread -/

structure Node (α : Type) where
  address : Nat
  entry : α
  deriving DecidableEq, Repr

structure WalkState (α : Type) where
  it : Option (Node α)
  curBucket : Nat
  reclaimed : Nat
  needed : Nat
  age : Nat

/-- The list with its iterators, the nodes allocated so far, and the flags `in_lru`. -/
structure Evictor (α : Type) where
  lru : Lru (Node α)
  allocated : Nat
  inLru : α → Bool
  walk : Option (WalkState α)

def Evictor.initial : Evictor α := ⟨.initial, 0, fun _ => false, none⟩

/-- `lru_insert`: the entry gets a new node. -/
def Evictor.lruInsert (s : Evictor α) (entry : α) (bucket : Nat) : Evictor α :=
  { s with lru := s.lru.insert ⟨s.allocated, entry⟩ bucket, allocated := s.allocated + 1 }

/-- The body of the loop in `drain_candidates_into_lru`, for any bucket. -/
def Evictor.file (s : Evictor α) (entry : α) (bucket : Nat) : Evictor α :=
  if s.inLru entry then s
  else { s.lruInsert entry bucket with inLru := Function.update s.inLru entry true }

def Evictor.drain (s : Evictor α) (data : α → EntryData) (age : Nat) (candidates : List α) :
    Evictor α :=
  candidates.foldl (fun s entry => s.file entry ((data entry).lruBucketFor age)) s

/-- An entry is taken out: its flag is cleared, then `lru_erase`. -/
def Evictor.takeOut (s : Evictor α) (node : Node α) : Evictor α :=
  { s with lru := (s.lru.erase node).2, inLru := Function.update s.inLru node.entry false }

def Evictor.round (s : Evictor α) (w : WalkState α) (looked tried : EntryData) : Evictor α :=
  match w.it with
  | none => { s with walk := none }
  | some node =>
    if w.needed ≤ w.reclaimed then { s with walk := none }
    else
      let curBucket := advance s.lru.buckets (some node) w.curBucket
      if nLruBuckets ≤ curBucket then { s with walk := none }
      else if !looked.isConsumedOrStale w.age then
        { s with walk := some { w with it := nextOf s.lru.list node, curBucket := curBucket } }
      else
        let intended := looked.lruBucketFor w.age
        if intended ≤ curBucket then
          let freed := (tryEvictRaw w.age (fun _ => tried) node.entry).1
          if 0 < freed then
            { s.takeOut node with
              walk := some { w with
                it := (s.lru.erase node).1, curBucket := curBucket, reclaimed := w.reclaimed + freed } }
          else
            { s with walk := some { w with it := nextOf s.lru.list node, curBucket := curBucket } }
        else
          { s with
            lru := (s.lru.erase node).2
            walk := some { w with it := (s.lru.erase node).1, curBucket := curBucket } }.lruInsert
              node.entry intended

inductive LruLabel (α : Type) where
  | insert (entry : α) (bucket : Nat)
  | erase (node : Node α)
  | age
  | drain (data : α → EntryData) (age : Nat) (candidates : List α)
  | startWalk (age needed reclaimed : Nat)
  | round (looked tried : EntryData)

/-- The thread does one thing at a time. An iterator that is erased stands at a node of the list. -/
def Evictor.step (s : Evictor α) : LruLabel α → Option (Evictor α)
  | .insert entry bucket =>
    if s.walk.isNone ∧ bucket < nLruBuckets then some (s.file entry bucket) else none
  | .erase node => if s.walk.isNone ∧ node ∈ s.lru.list then some (s.takeOut node) else none
  | .age => if s.walk.isNone then some { s with lru := s.lru.age } else none
  | .drain data age candidates => if s.walk.isNone then some (s.drain data age candidates) else none
  | .startWalk age needed reclaimed =>
    if s.walk.isNone then
      some { s with walk := some ⟨s.lru.list.head?, 0, reclaimed, needed, age⟩ }
    else none
  | .round looked tried => s.walk.map fun w => s.round w looked tried

/-! ## The buckets -/

def Lru.separator (lru : Lru α) (b : Nat) : Option α := lru.buckets[b]?.getD none

/-- How many nodes stand before bucket `b`. -/
def Lru.bucketStart (lru : Lru α) : Nat → Nat
  | 0 => 0
  | b + 1 => lru.position (lru.separator b)

def Lru.bucket (lru : Lru α) (b : Nat) : List α :=
  (lru.list.take (lru.position (lru.separator b))).drop (lru.bucketStart b)

/-- The iterators stand in the list, in its order, and the last one at its end. -/
structure Lru.Separated (lru : Lru α) : Prop where
  length : lru.buckets.length = nLruBuckets
  inside : ∀ node, some node ∈ lru.buckets → node ∈ lru.list
  monotone : ∀ i j, i ≤ j → j < nLruBuckets →
    lru.position (lru.separator i) ≤ lru.position (lru.separator j)
  last : lru.separator (nLruBuckets - 1) = none

section Buckets

variable {lru : Lru α} {B : List (α × Nat)} {b : Nat}

omit [DecidableEq α] in
theorem Lru.Represents.separator (h : lru.Represents B) (hb : b < nLruBuckets) :
    lru.separator b = boundary B b := by
  rw [Lru.separator, h.getElem?_buckets hb, Option.getD_some]

theorem Lru.Represents.position_separator (h : lru.Represents B) (hb : b < nLruBuckets) :
    lru.position (lru.separator b) = (B.filter fun x => x.2 ≤ b).length := by
  rw [h.separator hb, position_boundary h]

theorem Lru.Represents.separated (h : lru.Represents B) : lru.Separated where
  length := by
    rw [h.buckets, boundaries, length_map, length_range]
  inside node hmem := by
    rw [h.buckets] at hmem
    obtain ⟨j, -, hj⟩ := mem_map.1 hmem
    obtain ⟨x, hx, rfl, -⟩ := boundary_mem hj
    rw [h.list]
    exact mem_map_of_mem hx
  monotone i j hij hj := by
    rw [h.position_separator (by omega), h.position_separator hj]
    apply List.Sublist.length_le
    apply monotone_filter_right
    intro x hx
    rw [decide_eq_true_iff] at hx ⊢
    exact hx.trans hij
  last := by
    rw [h.separator (by decide), boundary_eq_none]
    exact fun x hx => Nat.le_sub_one_of_lt (h.bucketed.lt x hx)

/-- The nodes before the end of bucket `b`. -/
theorem Lru.Represents.take_separator (h : lru.Represents B) (hb : b < nLruBuckets) :
    lru.list.take (lru.position (lru.separator b)) =
      (B.filter fun x => x.2 ≤ b).map Prod.fst := by
  have hlist : lru.list = (B.filter fun x => x.2 ≤ b).map Prod.fst ++
      (B.filter fun x => b < x.2).map Prod.fst := by
    rw [← map_append, Bucketed.filter_append h.bucketed.sorted, h.list]
  rw [hlist, h.position_separator hb]
  exact take_left' (length_map ..)

theorem Lru.Represents.bucket_eq (h : lru.Represents B) (hb : b < nLruBuckets) :
    lru.bucket b = (B.filter fun x => x.2 = b).map Prod.fst := by
  rw [Lru.bucket, h.take_separator hb]
  cases b with
  | zero => simp [Lru.bucketStart]
  | succ b =>
    -- the nodes before the end of the bucket are cut again, where the bucket starts
    have hcut := Bucketed.filter_append
      (h.bucketed.sorted.sublist (filter_sublist (p := fun x => x.2 ≤ b + 1))) b
    have hfront : (B.filter fun x => x.2 ≤ b + 1).filter (fun x => x.2 ≤ b) =
        B.filter fun x => x.2 ≤ b := by
      rw [filter_filter]
      apply filter_congr
      grind
    have hbucket : (B.filter fun x => x.2 ≤ b + 1).filter (fun x => b < x.2) =
        B.filter fun x => x.2 = b + 1 := by
      rw [filter_filter]
      apply filter_congr
      grind
    rw [hfront, hbucket] at hcut
    rw [← hcut, map_append, Lru.bucketStart, h.position_separator (by omega)]
    exact drop_left' (length_map ..)

variable {bucket : Nat}

/-- **An insertion** changes its own bucket only, which gets a new last node. -/
theorem Lru.Represents.bucket_insert (h : lru.Represents B) {node : α} (hnew : node ∉ lru.list)
    (hbucket : bucket < nLruBuckets) (hb : b < nLruBuckets) :
    (lru.insert node bucket).bucket b =
      if b = bucket then lru.bucket b ++ [node] else lru.bucket b := by
  rw [(h.insert hnew hbucket).bucket_eq hb, h.bucket_eq hb, insertTail, filter_append,
    filter_cons, filter_filter, filter_filter]
  have hearly : (B.filter fun x => decide (x.2 = b) && decide (x.2 ≤ bucket)) =
      if b ≤ bucket then B.filter fun x => x.2 = b else [] := by
    split
    · apply filter_congr
      grind
    · rw [filter_eq_nil_iff]
      grind
  have hlate : (B.filter fun x => decide (x.2 = b) && decide (bucket < x.2)) =
      if b ≤ bucket then [] else B.filter fun x => x.2 = b := by
    split
    · rw [filter_eq_nil_iff]
      grind
    · apply filter_congr
      grind
  rw [hearly, hlate]
  rcases Nat.lt_trichotomy b bucket with hlt | rfl | hgt
  · simp [hlt.le, hlt.ne, hlt.ne']
  · simp
  · simp [hgt.not_ge, hgt.ne, hgt.ne']

end Buckets

/-! ## What every operation keeps -/

section Lists

theorem insertBefore_perm (pos : Option α) (a : α) (l : List α) :
    (insertBefore pos a l).Perm (a :: l) := by
  have hmiddle : (insertBefore pos a l).Perm (a :: (l.takeWhile (fun x => some x ≠ pos) ++
      l.dropWhile (fun x => some x ≠ pos))) := perm_middle
  rwa [takeWhile_append_dropWhile] at hmiddle

theorem mem_of_nextOf {l : List α} {a b : α} (h : nextOf l a = some b) : b ∈ l :=
  (dropWhile_sublist _).subset (mem_of_mem_tail (mem_of_mem_head? h))

theorem Lru.Represents.erase_of_mem {lru : Lru α} {B : List (α × Nat)} (h : lru.Represents B)
    {node : α} (hmem : node ∈ lru.list) :
    (∃ B', (lru.erase node).2.Represents B') ∧ lru.list.Perm (node :: (lru.erase node).2.list) ∧
      ∀ next, (lru.erase node).1 = some next → next ∈ (lru.erase node).2.list := by
  have hperm : lru.list.Perm (node :: (lru.erase node).2.list) := perm_cons_erase hmem
  rw [h.list] at hmem
  obtain ⟨x, hx, rfl⟩ := mem_map.1 hmem
  obtain ⟨B₁, B₂, rfl⟩ := append_of_mem hx
  obtain ⟨hnext, hrest⟩ := h.erase
  refine ⟨⟨_, hrest⟩, hperm, ?_⟩
  intro next hsome
  rw [hnext] at hsome
  obtain ⟨y, hy, rfl⟩ := Option.map_eq_some_iff.1 hsome
  rw [hrest.list]
  exact mem_map_of_mem (mem_append_right _ (mem_of_mem_head? hy))

end Lists

/-- The list has bucket numbers and new nodes are new; an entry has at most one node, and its flag tells
whether it has one; a walk stands at a node. -/
structure Evictor.Inv (s : Evictor α) : Prop where
  represents : ∃ B, s.lru.Represents B
  fresh : ∀ node ∈ s.lru.list, node.address < s.allocated
  nodup : (s.lru.list.map Node.entry).Nodup
  flag : ∀ entry, s.inLru entry = true ↔ entry ∈ s.lru.list.map Node.entry
  walking : ∀ w, s.walk = some w → ∀ node, w.it = some node → node ∈ s.lru.list

namespace Evictor.Inv

variable {s : Evictor α} {node : Node α} {bucket : Nat}

omit [DecidableEq α] in
theorem new (h : s.Inv) (entry : α) : (⟨s.allocated, entry⟩ : Node α) ∉ s.lru.list := by
  intro hmem
  exact Nat.lt_irrefl _ (h.fresh _ hmem)

omit [DecidableEq α] in
theorem entries_iff {l l' : List (Node α)} (h : l.Perm (node :: l')) (entry : α) :
    entry ∈ l.map Node.entry ↔ entry = node.entry ∨ entry ∈ l'.map Node.entry := by
  rw [(h.map Node.entry).mem_iff, map_cons, mem_cons]

theorem file (h : s.Inv) (hwalk : s.walk = none) (entry : α) (hbucket : bucket < nLruBuckets) :
    (s.file entry bucket).Inv := by
  rw [Evictor.file]
  split
  · exact h
  next hflag =>
    obtain ⟨B, hB⟩ := h.represents
    have hperm := insertBefore_perm (s.lru.buckets[bucket]?.getD none) ⟨s.allocated, entry⟩ s.lru.list
    have hnot : entry ∉ s.lru.list.map Node.entry := fun hmem => hflag ((h.flag entry).2 hmem)
    refine ⟨⟨_, hB.insert (h.new entry) hbucket⟩, ?_, ?_, ?_, ?_⟩
    · intro node hnode
      rcases mem_cons.1 (hperm.mem_iff.1 hnode) with rfl | hold
      · exact Nat.lt_succ_self _
      · exact Nat.lt_succ_of_lt (h.fresh node hold)
    · apply (hperm.map Node.entry).nodup_iff.2
      exact nodup_cons.2 ⟨hnot, h.nodup⟩
    · intro e
      show update s.inLru entry true e = true ↔ e ∈ map Node.entry (insertBefore _ _ _)
      rw [entries_iff hperm e, ← h.flag e]
      by_cases he : e = entry
      · subst he
        simp
      · simp [he]
    · intro w hw
      rw [show s.walk = some w from hw] at hwalk
      cases hwalk

/-- What is left in the list after one node is gone. -/
theorem erase (h : s.Inv) (hmem : node ∈ s.lru.list) :
    node.entry ∉ (s.lru.erase node).2.list.map Node.entry ∧
      ((s.lru.erase node).2.list.map Node.entry).Nodup ∧
      ∀ entry, s.inLru entry = true ↔
        entry = node.entry ∨ entry ∈ (s.lru.erase node).2.list.map Node.entry := by
  obtain ⟨B, hB⟩ := h.represents
  obtain ⟨-, hperm, -⟩ := hB.erase_of_mem hmem
  have hnodup := (hperm.map Node.entry).nodup_iff.1 h.nodup
  rw [map_cons, nodup_cons] at hnodup
  refine ⟨hnodup.1, hnodup.2, ?_⟩
  intro entry
  rw [h.flag, entries_iff hperm]

theorem takeOut (h : s.Inv) (hmem : node ∈ s.lru.list) (walk : Option (WalkState α))
    (hwalk : ∀ w, walk = some w → ∀ next, w.it = some next → next ∈ (s.lru.erase node).2.list) :
    ({ s.takeOut node with walk := walk } : Evictor α).Inv := by
  obtain ⟨B, hB⟩ := h.represents
  obtain ⟨hrest, hperm, -⟩ := hB.erase_of_mem hmem
  obtain ⟨hgone, hnodup, hflag⟩ := h.erase hmem
  refine ⟨hrest, ?_, hnodup, ?_, hwalk⟩
  · intro other hother
    exact h.fresh other (hperm.mem_iff.2 (mem_cons_of_mem _ hother))
  · intro entry
    show update s.inLru node.entry false entry = true ↔
      entry ∈ (s.lru.erase node).2.list.map Node.entry
    by_cases he : entry = node.entry
    · subst he
      simpa using hgone
    · rw [update_of_ne he, hflag entry]
      exact or_iff_right he

theorem move (h : s.Inv) (hmem : node ∈ s.lru.list) (hbucket : bucket < nLruBuckets)
    (walk : Option (WalkState α))
    (hwalk : ∀ w, walk = some w → ∀ next, w.it = some next → next ∈ (s.lru.erase node).2.list) :
    ({ s with lru := (s.lru.erase node).2, walk := walk }.lruInsert node.entry bucket).Inv := by
  obtain ⟨B, hB⟩ := h.represents
  obtain ⟨⟨B', hB'⟩, hperm, -⟩ := hB.erase_of_mem hmem
  obtain ⟨hgone, hnodup, hflag⟩ := h.erase hmem
  have hfresh : ∀ other ∈ (s.lru.erase node).2.list, other.address < s.allocated :=
    fun other hother => h.fresh other (hperm.mem_iff.2 (mem_cons_of_mem _ hother))
  have hnew : (⟨s.allocated, node.entry⟩ : Node α) ∉ (s.lru.erase node).2.list :=
    fun hin => Nat.lt_irrefl _ (hfresh _ hin)
  have hperm' := insertBefore_perm ((s.lru.erase node).2.buckets[bucket]?.getD none)
    ⟨s.allocated, node.entry⟩ (s.lru.erase node).2.list
  refine ⟨⟨_, hB'.insert hnew hbucket⟩, ?_, ?_, ?_, ?_⟩
  · intro other hother
    rcases mem_cons.1 (hperm'.mem_iff.1 hother) with rfl | hold
    · exact Nat.lt_succ_self _
    · exact Nat.lt_succ_of_lt (hfresh other hold)
  · exact (hperm'.map Node.entry).nodup_iff.2 (nodup_cons.2 ⟨hgone, hnodup⟩)
  · intro entry
    exact (hflag entry).trans (entries_iff hperm' entry).symm
  · intro w hw next hnext
    exact hperm'.mem_iff.2 (mem_cons_of_mem _ (hwalk w hw next hnext))

theorem age (h : s.Inv) : ({ s with lru := s.lru.age } : Evictor α).Inv := by
  obtain ⟨B, hB⟩ := h.represents
  have hlist : s.lru.age.list = s.lru.list := by
    rw [Lru.age]
    split <;> rfl
  refine ⟨hB.age, ?_, ?_, ?_, ?_⟩
  · exact fun node hnode => h.fresh node (hlist ▸ hnode)
  · show (s.lru.age.list.map Node.entry).Nodup
    rw [hlist]
    exact h.nodup
  · intro entry
    show _ ↔ entry ∈ s.lru.age.list.map Node.entry
    rw [hlist]
    exact h.flag entry
  · exact fun w hw node hnode => hlist ▸ h.walking w hw node hnode

theorem drain (h : s.Inv) (hwalk : s.walk = none) (data : α → EntryData) (age : Nat)
    (candidates : List α) : (s.drain data age candidates).Inv := by
  induction candidates generalizing s with
  | nil => exact h
  | cons entry candidates ih =>
    have hkeep : (s.file entry ((data entry).lruBucketFor age)).walk = none := by
      rw [Evictor.file]
      split
      · exact hwalk
      · exact hwalk
    exact ih (h.file hwalk entry ((data entry).lruBucketFor_lt age)) hkeep

omit [DecidableEq α] in
theorem setWalk (h : s.Inv) (walk : Option (WalkState α))
    (hwalk : ∀ w, walk = some w → ∀ node, w.it = some node → node ∈ s.lru.list) :
    ({ s with walk := walk } : Evictor α).Inv :=
  ⟨h.represents, h.fresh, h.nodup, h.flag, hwalk⟩

/-- **A round of a walk** skips an entry, takes it out or moves it. -/
theorem round (h : s.Inv) {w : WalkState α} (hw : s.walk = some w) (looked tried : EntryData) :
    (s.round w looked tried).Inv := by
  have hleave : ({ s with walk := none } : Evictor α).Inv := h.setWalk none (by simp)
  rw [Evictor.round]
  split
  · exact hleave
  rename_i node hit
  have hmem : node ∈ s.lru.list := h.walking w hw node hit
  have hskip : ∀ curBucket, ({ s with
      walk := some { w with it := nextOf s.lru.list node, curBucket := curBucket } } :
        Evictor α).Inv := by
    intro curBucket
    apply h.setWalk
    rintro w' ⟨⟩ next hnext
    exact mem_of_nextOf hnext
  obtain ⟨B, hB⟩ := h.represents
  obtain ⟨-, -, hnext⟩ := hB.erase_of_mem hmem
  dsimp only
  split
  · exact hleave
  split
  · exact hleave
  split
  · exact hskip _
  split
  · split
    · apply h.takeOut hmem
      rintro w' ⟨⟩
      exact hnext
    · exact hskip _
  · apply h.move hmem (looked.lruBucketFor_lt w.age)
    rintro w' ⟨⟩
    exact hnext

theorem step (h : s.Inv) {s' : Evictor α} {l : LruLabel α} (hstep : s.step l = some s') : s'.Inv := by
  cases l with
  | insert entry bucket =>
    obtain ⟨⟨hwalk, hbucket⟩, ⟨⟩⟩ := Option.ite_none_right_eq_some.1 hstep
    exact h.file (Option.isNone_iff_eq_none.1 hwalk) entry hbucket
  | erase node =>
    obtain ⟨⟨hwalk, hmem⟩, ⟨⟩⟩ := Option.ite_none_right_eq_some.1 hstep
    apply h.takeOut hmem s.walk
    rw [Option.isNone_iff_eq_none.1 hwalk]
    intro w hw
    cases hw
  | age =>
    obtain ⟨-, ⟨⟩⟩ := Option.ite_none_right_eq_some.1 hstep
    exact h.age
  | drain data age candidates =>
    obtain ⟨hwalk, ⟨⟩⟩ := Option.ite_none_right_eq_some.1 hstep
    exact h.drain (Option.isNone_iff_eq_none.1 hwalk) data age candidates
  | startWalk age needed reclaimed =>
    obtain ⟨-, ⟨⟩⟩ := Option.ite_none_right_eq_some.1 hstep
    apply h.setWalk
    rintro w ⟨⟩ node hnode
    exact mem_of_mem_head? hnode
  | round looked tried =>
    obtain ⟨w, hw, rfl⟩ := Option.map_eq_some_iff.1 hstep
    exact h.round hw looked tried

end Evictor.Inv

omit [DecidableEq α] in
theorem Evictor.initial_inv : (Evictor.initial : Evictor α).Inv where
  represents := ⟨[], initial_represents⟩
  fresh := by simp [Evictor.initial, Lru.initial]
  nodup := nodup_nil
  flag := by simp [Evictor.initial, Lru.initial]
  walking := by simp [Evictor.initial]

/-- **The structure of the eviction list.** In every state that the evictor thread can reach, the
separators are in the order of the list and the last one is at its end, no entry is in the list twice,
the flags tell which entries are in it, and an insertion only adds the last node of its bucket. -/
theorem lru_structure {s : Evictor α} (h : Run Evictor.step (fun _ _ => True) .initial s) :
    s.lru.Separated ∧ (s.lru.list.map Node.entry).Nodup ∧
      (∀ entry, s.inLru entry = true ↔ entry ∈ s.lru.list.map Node.entry) ∧
      ∀ (entry : α) (bucket : Nat), bucket < nLruBuckets → ∀ b, b < nLruBuckets →
        (s.lruInsert entry bucket).lru.bucket b =
          if b = bucket then s.lru.bucket b ++ [⟨s.allocated, entry⟩] else s.lru.bucket b := by
  have hinv : s.Inv := h.invariant Evictor.initial_inv fun hinv _ hstep => hinv.step hstep
  obtain ⟨B, hB⟩ := hinv.represents
  refine ⟨hB.separated, hinv.nodup, hinv.flag, ?_⟩
  intro entry bucket hbucket b hb
  exact hB.bucket_insert (hinv.new entry) hbucket hb

/-- Three candidates, one of them queued twice. After an aging a walk skips the first entry, moves the
second one to the end of the list and evicts the third one. -/
theorem lru_structure_walked :
    ∃ s : Evictor Nat, Run Evictor.step (fun _ _ => True) .initial s ∧
      s.lru.list.map Node.entry = [0, 1] ∧ s.inLru 2 = false ∧ s.lru.Separated := by
  obtain ⟨s, hrun, hlist, hflag⟩ : ∃ s : Evictor Nat,
      Run Evictor.step (fun _ _ => true = true) .initial s ∧
        s.lru.list.map Node.entry = [0, 1] ∧ s.inLru 2 = false := by
    apply Run.exists_of_runLabels [LruLabel.drain (fun _ => ⟨1, 1, 0, .cached, 1⟩) 1 [0, 1, 0, 2],
      LruLabel.age, LruLabel.startWalk 1 2 0,
      LruLabel.round ⟨1, 1, 0, .cached, 1⟩ ⟨1, 1, 0, .cached, 1⟩,
      LruLabel.round ⟨1, 1, 1, .cached, 1⟩ ⟨1, 1, 1, .cached, 1⟩,
      LruLabel.round ⟨0, 1, 1, .cached, 1⟩ ⟨0, 1, 1, .cached, 1⟩]
    decide
  have hrun' := hrun.mono fun _ _ _ => trivial
  exact ⟨s, hrun', hlist, hflag, (lru_structure hrun').1⟩

end Sirius.Cache
