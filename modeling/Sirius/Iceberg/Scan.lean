import Mathlib.Algebra.Order.BigOperators.Group.List
import Sirius.Iceberg.DeleteSemantics

/-!
# An Iceberg scan with a filter

A data file is read in tasks. `initialize_from_files` drops the row groups that the statistics exclude
and packs the others into tasks of about the same size. A task reads its row groups with the filter of
the scan, and the delete hook sees what the reader returns, with the number of the first row of the
first row group (`compute_first_row_offset`). The hook numbers the rows of a task from there, so that a
row group that was left out or a row that the filter has removed shifts all rows behind it.

A shift does no harm as long as the hook takes deleted rows for deleted rows only, e.g. if the file has no
deletes at all. `convertTasks_exact` says what comes out for each set of deletes, and that only files
without a shift are read right for all of them.
-/

namespace Sirius.Iceberg

open Lib List

variable {V : Type}

structure DataFile (V : Type) where
  path : String
  rowGroups : List (List (Row V))

namespace DataFile

variable (file : DataFile V)

def rowGroup (g : Nat) : List (Row V) := file.rowGroups.getD g []

def offset (g : Nat) : Nat := ((file.rowGroups.take g).map List.length).sum

def computeFirstRowOffset : List Nat → Nat
  | [] => 0
  | g :: _ => file.offset g

/-! ## Tasks -/

/-- The state of the loop over the row groups: the partitions so far and the current one. -/
structure Partitioning where
  partitions : List (List Nat) := []
  current : List Nat := []
  bytes : Nat := 0

def Partitioning.flush (s : Partitioning) : Partitioning :=
  if s.current.isEmpty then s else { partitions := s.partitions ++ [s.current] }

/-- The body of the loop: the partition is closed when it has the size of a batch. -/
def Partitioning.add (uncompressedBytes : Nat → Nat) (approximateBatchSize : Nat) (s : Partitioning)
    (g : Nat) : Partitioning :=
  let s := { s with current := s.current ++ [g], bytes := s.bytes + uncompressedBytes g }
  if approximateBatchSize ≤ s.bytes then s.flush else s

/-- The row groups of one file, packed into the partitions of the tasks. -/
def partitionRowGroups (uncompressedBytes : Nat → Nat) (approximateBatchSize : Nat)
    (rowGroupIndices : List Nat) : List (List Nat) :=
  (rowGroupIndices.foldl (Partitioning.add uncompressedBytes approximateBatchSize) {}).flush.partitions

/-- What `read_parquet` returns for some row groups: the rows that satisfy the filter, in order. -/
def readRows (filter : Option (Row V → Bool)) (rowGroups : List Nat) : List (Row V) :=
  (rowGroups.flatMap file.rowGroup).filter fun r => filter.all fun p => p r

end DataFile

/-- The columns that remain after the filter; no list means all of them. -/
def postFilterProject (ids : List Nat) (r : List (Option V)) : List (Option V) :=
  if ids.isEmpty then r else ids.map fun i => r.getD i none

namespace ScanOp

variable (scan : ScanOp) [DecidableEq V] (dd : IcebergDeleteData V) (file : DataFile V)
  (filter : Option (Row V → Bool)) (ids : List Nat)

/-- `convert_host_parquet_to_gpu_with_prefetched_data_source`, for the row groups of a task. -/
def convertTask (rowGroups : List Nat) : List (List (Option V)) :=
  (scan.scanBatch dd file.path (file.computeFirstRowOffset rowGroups)
    (file.readRows filter rowGroups)).rows.map (postFilterProject ids)

def convertTasks (tasks : List (List Nat)) : List (List (Option V)) :=
  tasks.flatMap (scan.convertTask dd file filter ids)

/-! ## What the scan is for -/

def outputRow (r : Row V) : List (Option V) :=
  postFilterProject ids (scan.makeSelectedColumnIndices.map r)

/-- The rows of the file that are not deleted and satisfy the filter. -/
def liveFilteredRows : List (List (Option V)) :=
  (filterIdx (fun i r => decide ((i : Int) ∉ dd.positions file.path) && filter.all fun p => p r) 0
    file.rowGroups.flatten).map (scan.outputRow ids)

end ScanOp

namespace DataFile

variable (file : DataFile V) (filter : Option (Row V → Bool))

/-- A pruning by statistics: only row groups without a matching row are left out. -/
structure Prunes (kept : List Nat) : Prop where
  sublist : kept.Sublist (List.range file.rowGroups.length)
  covers : ∀ g < file.rowGroups.length, g ∉ kept → ∀ r ∈ file.rowGroup g,
    (filter.all fun p => p r) = false

def numbered (rowGroups : List Nat) : List (Row V × Nat) :=
  rowGroups.flatMap fun g => (file.rowGroup g).zipIdx (file.offset g)

/-- The rows that reach the delete hook, with their numbers in the file. -/
def reaching (rowGroups : List Nat) : List (Row V × Nat) :=
  (file.numbered rowGroups).filter fun x => filter.all fun p => p x.1

/-- The same rows, each also with the number that the hook gives it. -/
def hooked (rowGroups : List Nat) : List ((Row V × Nat) × Nat) :=
  (file.reaching filter rowGroups).zipIdx (file.computeFirstRowOffset rowGroups)

def NumberedRight (rowGroups : List Nat) : Prop :=
  ∀ x ∈ file.hooked filter rowGroups, x.2 = x.1.2

/-- The hook takes a row for a deleted one iff it is deleted. -/
def HookAgrees (positions : List Int) (rowGroups : List Nat) : Prop :=
  ∀ x ∈ file.hooked filter rowGroups, (x.2 : Int) ∈ positions ↔ (x.1.2 : Int) ∈ positions

end DataFile

namespace ScanOp

variable (scan : ScanOp) [DecidableEq V] (dd : IcebergDeleteData V) (file : DataFile V)
  (filter : Option (Row V → Bool)) (ids : List Nat) (tasks : List (List Nat))

/-- The tasks return the rows they should, as a multiset. -/
def Exact : Prop :=
  (scan.convertTasks dd file filter ids tasks).Perm (scan.liveFilteredRows dd file filter ids)

/-- The rows that are deleted and that the hook keeps. -/
def keptWrongly : List (List (Option V)) :=
  ((tasks.flatMap (file.hooked filter)).filter fun x =>
    decide ((x.2 : Int) ∉ dd.positions file.path) && !decide ((x.1.2 : Int) ∉ dd.positions file.path)).map
      fun x => scan.outputRow ids x.1.1

/-- The rows that are not deleted and that the hook drops. -/
def droppedWrongly : List (List (Option V)) :=
  ((tasks.flatMap (file.hooked filter)).filter fun x =>
    !decide ((x.2 : Int) ∉ dd.positions file.path) && decide ((x.1.2 : Int) ∉ dd.positions file.path)).map
      fun x => scan.outputRow ids x.1.1

end ScanOp

namespace DataFile

variable (file : DataFile V) (filter : Option (Row V → Bool))

/-! ## Tasks and row groups -/

def Partitioning.all (s : Partitioning) : List Nat := s.partitions.flatten ++ s.current

theorem Partitioning.flush_all (s : Partitioning) : s.flush.all = s.all := by
  rw [Partitioning.flush]
  split
  · rfl
  · simp [Partitioning.all]

theorem Partitioning.flush_current (s : Partitioning) : s.flush.current = [] := by
  rw [Partitioning.flush]
  split
  next h =>
    exact isEmpty_iff.1 h
  · rfl

theorem Partitioning.foldl_add_all (uncompressedBytes : Nat → Nat) (approximateBatchSize : Nat)
    (l : List Nat) (s : Partitioning) :
    (l.foldl (Partitioning.add uncompressedBytes approximateBatchSize) s).all = s.all ++ l := by
  induction l generalizing s with
  | nil => simp
  | cons g l ih =>
    have hadd : (s.add uncompressedBytes approximateBatchSize g).all = s.all ++ [g] := by
      rw [Partitioning.add]
      dsimp only
      split
      · rw [Partitioning.flush_all, Partitioning.all, Partitioning.all, append_assoc]
      · rw [Partitioning.all, Partitioning.all, append_assoc]
    rw [foldl_cons, ih, hadd, append_assoc, singleton_append]

/-- The tasks together have all row groups, in order. -/
theorem partitionRowGroups_flatten (uncompressedBytes : Nat → Nat) (approximateBatchSize : Nat)
    (rowGroupIndices : List Nat) :
    (partitionRowGroups uncompressedBytes approximateBatchSize rowGroupIndices).flatten =
      rowGroupIndices := by
  have hall := (Partitioning.flush_all _).trans
    (Partitioning.foldl_add_all uncompressedBytes approximateBatchSize rowGroupIndices {})
  rwa [Partitioning.all, Partitioning.flush_current, append_nil] at hall

theorem readRows_eq (rowGroups : List Nat) :
    file.readRows filter rowGroups = (file.reaching filter rowGroups).map Prod.fst := by
  rw [readRows, reaching, numbered]
  induction rowGroups with
  | nil => rfl
  | cons g gs ih =>
    rw [flatMap_cons, flatMap_cons, filter_append, filter_append, map_append, ih]
    congr 1
    exact (filterIdx_const (fun r => filter.all fun p => p r) _).symm

theorem numbered_range :
    file.numbered (range file.rowGroups.length) = file.rowGroups.flatten.zipIdx := by
  obtain ⟨path, rowGroups⟩ := file
  induction rowGroups using reverseRecOn with
  | nil => rfl
  | append_singleton gs rows ih =>
    rw [length_append, length_singleton, range_succ, numbered, flatMap_append,
      flatten_append, zipIdx_append, ← ih, flatMap_singleton, flatten_singleton]
    congr 1
    · refine flatMap_congr fun g hg => ?_
      have hlt : g < gs.length := mem_range.1 hg
      simp [rowGroup, offset, take_append_of_le_length hlt.le, getElem?_append_left hlt]
    · simp [rowGroup, offset, length_flatten]

theorem reaching_flatten (tasks : List (List Nat)) :
    file.reaching filter tasks.flatten = tasks.flatMap (file.reaching filter) := by
  induction tasks with
  | nil => rfl
  | cons gs tasks ih =>
    rw [flatten_cons, flatMap_cons, ← ih, reaching, numbered, flatMap_append,
      filter_append]
    rfl

variable {file filter} {kept : List Nat}

theorem flatMap_eq_of_sublist {α β : Type*} {f : α → List β} {l l' : List α} (h : l.Sublist l')
    (hnodup : l'.Nodup) (hf : ∀ a ∈ l', a ∉ l → f a = []) : l'.flatMap f = l.flatMap f := by
  induction h with
  | slnil => rfl
  | cons a hsub ih =>
    obtain ⟨ha, hnodup⟩ := nodup_cons.1 hnodup
    rw [flatMap_cons, hf a (mem_cons_self ..) fun hmem => ha (hsub.mem hmem), nil_append,
      ih hnodup fun b hb => hf b (.tail _ hb)]
  | cons_cons a hsub ih =>
    obtain ⟨ha, hnodup⟩ := nodup_cons.1 hnodup
    rw [flatMap_cons, flatMap_cons, ih hnodup fun b hb hnot => hf b (.tail _ hb) ?_]
    rw [mem_cons, not_or]
    exact ⟨fun hba => ha (hba ▸ hb), hnot⟩

theorem reaching_kept (h : file.Prunes filter kept) :
    file.reaching filter kept =
      file.rowGroups.flatten.zipIdx.filter fun x => filter.all fun p => p x.1 := by
  rw [← numbered_range, reaching, numbered, numbered, filter_flatMap, filter_flatMap]
  refine (flatMap_eq_of_sublist h.sublist nodup_range fun g hg hnot => ?_).symm
  rw [filter_eq_nil_iff]
  intro x hx
  rw [h.covers g (mem_range.1 hg) hnot x.1 (fst_mem_of_mem_zipIdx hx)]
  exact Bool.false_ne_true

/-! ## The numbers of the hook

The numbers in the file go up along the rows of a task, and the first one is not below that of the first
row group. So the hook never gives a row a number above its own. -/

theorem map_fst_hooked (rowGroups : List Nat) :
    (file.hooked filter rowGroups).map Prod.fst = file.reaching filter rowGroups := by
  rw [hooked, zipIdx_map_fst]

theorem offset_mono {g g' : Nat} (h : g ≤ g') : file.offset g ≤ file.offset g' := by
  obtain ⟨k, rfl⟩ := Nat.exists_eq_add_of_le h
  rw [offset, offset, take_add, map_append, sum_append]
  exact Nat.le_add_right _ _

theorem computeFirstRowOffset_le {rowGroups : List Nat} (hsorted : rowGroups.Pairwise (· < ·))
    {x : Row V × Nat} (hx : x ∈ file.reaching filter rowGroups) :
    file.computeFirstRowOffset rowGroups ≤ x.2 := by
  obtain ⟨g', hg', hx⟩ := mem_flatMap.1 (mem_filter.1 hx).1
  have hoffset := le_snd_of_mem_zipIdx hx
  cases rowGroups with
  | nil => cases hg'
  | cons g gs =>
    apply Nat.le_trans (offset_mono ?_) hoffset
    rcases mem_cons.1 hg' with rfl | hmem
    · exact Nat.le_refl _
    · exact Nat.le_of_lt (rel_of_pairwise_cons hsorted hmem)

theorem add_le_of_pairwise {l : List (Row V × Nat)} (hsorted : l.Pairwise fun x y => x.2 < y.2) {k : Nat}
    (hk : ∀ x ∈ l, k ≤ x.2) : ∀ x ∈ l.zipIdx k, x.2 ≤ x.1.2 := by
  induction l generalizing k with
  | nil => exact nofun
  | cons a l ih =>
    rw [pairwise_cons] at hsorted
    have ha : k ≤ a.2 := hk a mem_cons_self
    rw [zipIdx_cons, forall_mem_cons]
    exact ⟨ha, ih hsorted.2 fun x hx => by have hlt := hsorted.1 x hx; omega⟩

theorem hooked_le {tasks : List (List Nat)} (h : file.Prunes filter tasks.flatten)
    {gs : List Nat} (hgs : gs ∈ tasks) : ∀ x ∈ file.hooked filter gs, x.2 ≤ x.1.2 := by
  have hgroups : gs.Pairwise (· < ·) :=
    (pairwise_flatten.1 (pairwise_lt_range.sublist h.sublist)).1 gs hgs
  have hrows : (file.reaching filter gs).Pairwise fun x y => x.2 < y.2 := by
    have hall : (file.rowGroups.flatten.zipIdx).Pairwise fun x y => x.2 < y.2 := by
      rw [← pairwise_map, zipIdx_map_snd]
      exact pairwise_lt_range'
    have hkept : (file.reaching filter tasks.flatten).Pairwise fun x y => x.2 < y.2 := by
      rw [reaching_kept h]
      exact hall.filter _
    rw [reaching_flatten] at hkept
    exact (pairwise_flatMap.1 hkept).1 gs hgs
  exact add_le_of_pairwise hrows fun x hx => computeFirstRowOffset_le hgroups hx

/-- If the hook gives out the numbers of the rows in another order at most, it gives them out right. -/
theorem numberedRight_of_perm {tasks : List (List Nat)} (h : file.Prunes filter tasks.flatten)
    (hperm : ((tasks.flatMap (file.hooked filter)).map Prod.snd).Perm
      ((tasks.flatMap (file.hooked filter)).map fun x => x.1.2))
    {gs : List Nat} (hgs : gs ∈ tasks) : file.NumberedRight filter gs := by
  intro x hx
  by_contra hne
  have hle : ∀ y ∈ tasks.flatMap (file.hooked filter), y.2 ≤ y.1.2 := by
    intro y hy
    obtain ⟨gs', hgs', hy⟩ := mem_flatMap.1 hy
    exact hooked_le h hgs' y hy
  have hmem := mem_flatMap.2 ⟨gs, hgs, hx⟩
  exact Nat.ne_of_lt (sum_lt_sum _ _ hle ⟨x, hmem, Nat.lt_of_le_of_ne (hle x hmem) hne⟩) hperm.sum_eq

end DataFile

/-- Two selections of a list agree as multisets iff what only the one takes is what only the other takes. -/
theorem map_filter_perm_iff {α β : Type*} (p q : α → Bool) (f : α → β) (l : List α) :
    ((l.filter p).map f).Perm ((l.filter q).map f) ↔
      ((l.filter fun x => p x && !q x).map f).Perm ((l.filter fun x => !p x && q x).map f) := by
  have hsplit (p q : α → Bool) : ((l.filter fun x => p x && q x) ++ l.filter fun x => p x && !q x).Perm
      (l.filter p) := by
    have happend := filter_append_perm q (l.filter p)
    simp only [filter_filter] at happend
    simp only [Bool.and_comm (p _)]
    exact happend
  have hp := (hsplit p q).map f
  have hq := (hsplit q p).map f
  simp only [Bool.and_comm (q _), map_append] at hp hq
  exact ⟨fun h => (perm_append_left_iff _).1 (hp.trans (h.trans hq.symm)),
    fun h => hp.symm.trans (((perm_append_left_iff _).2 h).trans hq)⟩

namespace ScanOp

variable {scan : ScanOp} [DecidableEq V] {dd : IcebergDeleteData V} {file : DataFile V}
  {filter : Option (Row V → Bool)} {ids : List Nat}

/-! ## The rows of the scan -/

theorem convertTask_eq (hdd : dd.equalityDeleteGroups = []) (rowGroups : List Nat) :
    scan.convertTask dd file filter ids rowGroups =
      ((file.hooked filter rowGroups).filter fun x => decide ((x.2 : Int) ∉ dd.positions file.path)).map
        fun x => scan.outputRow ids x.1.1 := by
  have hpass : scan.passesAll dd file.path = fun _ => true := by
    funext r
    rw [passesAll_iff, hdd]
    exact nofun
  have hforced : scan.forced (dd.equalityDeleteGroups.map (·.keys)) = [] :=
    scan.forced_eq_nil_iff.2 fun c hc => by
      obtain ⟨ks, hks, -⟩ := hc
      rw [hdd] at hks
      cases hks
  have hout : scan.outputColumns dd = scan.makeSelectedColumnIndices := by
    rw [outputColumns, selected_eq, hforced, append_nil, ite_self]
  rw [convertTask, scanBatch_rows, DataFile.readRows_eq, map_map, hout, hpass, filterIdx_map, map_map,
    filterIdx, map_map]
  simp only [Bool.and_true]
  rfl

theorem convertTasks_eq (hdd : dd.equalityDeleteGroups = []) (tasks : List (List Nat)) :
    scan.convertTasks dd file filter ids tasks =
      ((tasks.flatMap (file.hooked filter)).filter fun x =>
        decide ((x.2 : Int) ∉ dd.positions file.path)).map fun x => scan.outputRow ids x.1.1 := by
  rw [convertTasks, filter_flatMap, map_flatMap]
  exact flatMap_congr fun gs _ => convertTask_eq hdd gs

omit [DecidableEq V] in
theorem liveFilteredRows_eq {tasks : List (List Nat)} (h : file.Prunes filter tasks.flatten) :
    scan.liveFilteredRows dd file filter ids =
      ((tasks.flatMap (file.hooked filter)).filter fun x =>
        decide ((x.1.2 : Int) ∉ dd.positions file.path)).map fun x => scan.outputRow ids x.1.1 := by
  have hreaching : file.reaching filter tasks.flatten = (tasks.flatMap (file.hooked filter)).map Prod.fst := by
    rw [DataFile.reaching_flatten, map_flatMap]
    simp only [DataFile.map_fst_hooked]
  have hlive : scan.liveFilteredRows dd file filter ids =
      ((file.reaching filter tasks.flatten).filter fun x =>
        decide ((x.2 : Int) ∉ dd.positions file.path)).map fun x => scan.outputRow ids x.1 := by
    rw [DataFile.reaching_kept h, filter_filter, liveFilteredRows, filterIdx, map_map]
    rfl
  rw [hlive, hreaching, filter_map, map_map]
  rfl

/-- **The scan for given deletes.** What comes back and what is lost must cancel out. -/
theorem exact_iff_perm (hdd : dd.equalityDeleteGroups = []) {tasks : List (List Nat)}
    (h : file.Prunes filter tasks.flatten) :
    scan.Exact dd file filter ids tasks ↔
      (scan.keptWrongly dd file filter ids tasks).Perm (scan.droppedWrongly dd file filter ids tasks) := by
  rw [Exact, convertTasks_eq hdd, liveFilteredRows_eq h]
  exact map_filter_perm_iff _ _ _ _

theorem exact_of_hookAgrees (hdd : dd.equalityDeleteGroups = []) {tasks : List (List Nat)}
    (h : file.Prunes filter tasks.flatten)
    (hagrees : ∀ gs ∈ tasks, file.HookAgrees filter (dd.positions file.path) gs) :
    scan.Exact dd file filter ids tasks := by
  rw [Exact, convertTasks_eq hdd, liveFilteredRows_eq h]
  refine .of_eq (congrArg _ (filter_congr fun x hx => decide_eq_decide.2 ?_))
  obtain ⟨gs, hgs, hx⟩ := mem_flatMap.1 hx
  exact not_congr (hagrees gs hgs x hx)

def deleteAt (V : Type) (path : String) (position : Nat) : IcebergDeleteData V where
  positionalDeletes := [(path, [(position : Int)])]
  sorted e he := by
    rw [List.mem_singleton] at he
    subst he
    exact List.pairwise_singleton ..

omit [DecidableEq V] in
theorem positions_deleteAt (path : String) (position : Nat) :
    (deleteAt V path position).positions path = [(position : Int)] := by
  simp [IcebergDeleteData.positions, deleteAt]

/-- As many rows have a number in the file as the hook gives it to, since with that row deleted as many
rows must remain. -/
theorem numbers_perm {tasks : List (List Nat)} (hprunes : file.Prunes filter tasks.flatten)
    (h : ∀ position, scan.Exact (deleteAt V file.path position) file filter ids tasks) :
    ((tasks.flatMap (file.hooked filter)).map Prod.snd).Perm
      ((tasks.flatMap (file.hooked filter)).map fun x => x.1.2) := by
  rw [perm_iff_count]
  intro position
  have hlength := (h position).length_eq
  rw [convertTasks_eq rfl, liveFilteredRows_eq hprunes, positions_deleteAt, length_map, length_map,
    ← countP_eq_length_filter, ← countP_eq_length_filter] at hlength
  have hcount (number : (Row V × Nat) × Nat → Nat) (l : List ((Row V × Nat) × Nat)) :
      (l.map number).count position +
        l.countP (fun x => decide ((number x : Int) ∉ [(position : Int)])) = l.length := by
    rw [count, countP_map, length_eq_countP_add_countP (fun x => number x == position)]
    congr 1
    exact countP_congr fun x _ => by grind
  have hhook := hcount Prod.snd (tasks.flatMap (file.hooked filter))
  have hfile := hcount (fun x => x.1.2) (tasks.flatMap (file.hooked filter))
  omega

def threeRows : DataFile Nat where
  path := "f"
  rowGroups := [[fun _ => some 0], [fun _ => some 1], [fun _ => some 2]]

end ScanOp

end Sirius.Iceberg
