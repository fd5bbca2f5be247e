import Mathlib.Algebra.Order.Ring.Nat
import Sirius.Lib.Fallible
import Sirius.Lib.Runs

/-!
# Pinned tables

`CALL pin_table` reads columns of a table once and keeps them in the scan manager; later scans of the
same files are served from there. A second pin under the same name adds its columns to the entry if
its number of rows, its completeness and the memory spaces of its chunks are those of the entry
(`insert_pinned_entry`). Neither the files nor the rows of the chunks are compared.

If they agree, all columns of an entry hold the same rows of the same files, chunk by chunk, and so does
every batch that is made of them (`pins_stay_aligned`). Otherwise columns of different tables, or chunks
of different lengths, end up side by side (`merge_mixes_tables`).
-/

namespace Sirius.Pinned

open Lib List Function Option

/-! ## Entries -/

/-- A column of a chunk: what has been read, the files it is from, and the numbers of its rows in the
table that the files make up. -/
structure ColumnChunk where
  files : List String
  column : String
  rows : List Nat
  deriving DecidableEq, Repr

/-- A `cudf::table` with the rows of a chunk. All its columns have these rows. -/
structure Table where
  numColumns : Nat
  rows : List Nat
  deriving DecidableEq, Repr

abbrev Columns := String → Option (List ColumnChunk)

/-- `pinned_entry` of the GPU tier. A memory space may be a null pointer. -/
structure PinnedEntry where
  columnNames : List String
  filePaths : List String
  dataBatchesByColumn : Columns
  chunkMemorySpaces : List (Option Nat)
  numRows : Nat
  isPartial : Bool

abbrev PinnedEntries := String → Option PinnedEntry

/-- The arguments of `insert_pinned_entry`. A null table is `none`. -/
structure Pin where
  name : String
  columnNames : List String
  filePaths : List String
  dataTables : List (Option Table)
  chunkMemorySpaces : List (Option Nat)
  isPartial : Bool
  nodup : columnNames.Nodup

namespace Pin

def layout (pin : Pin) : List (List Nat) := pin.dataTables.filterMap fun table => table.map Table.rows

def numRows (pin : Pin) : Nat := (pin.layout.map List.length).sum

end Pin

/-! ## Pinning -/

def emplaceBack (data : Columns) (name : String) (chunk : ColumnChunk) : Columns :=
  Function.update data name (some ((data name).getD [] ++ [chunk]))

def addColumns (isNew : String → Bool) (files : List String) (rows : List Nat) :
    List String → Columns → Columns
  | [], data => data
  | name :: names, data =>
    addColumns isNew files rows names
      (if isNew name then emplaceBack data name ⟨files, name, rows⟩ else data)

def columnCountMessage (found expected : Nat) : String :=
  "[sirius_scan_manager::insert_pinned_entry] table column count " ++ toString found ++
    " does not match column_names size " ++ toString expected

/-- The loop over the tables. What has been added stays when it throws. -/
def addTables (isNew : String → Bool) (names files : List String) :
    List (Option Table) → Columns → Columns × Option String
  | [], data => (data, none)
  | none :: tables, data => addTables isNew names files tables data
  | some table :: tables, data =>
    if table.numColumns ≠ names.length then
      (data, some (columnCountMessage table.numColumns names.length))
    else addTables isNew names files tables (addColumns isNew files table.rows names data)

def mergeMismatch (entry : PinnedEntry) (pin : Pin) : Option String :=
  if entry.chunkMemorySpaces.length ≠ pin.chunkMemorySpaces.length then
    some ("[sirius_scan_manager::insert_pinned_entry] merge mismatch — " ++
      "existing.chunk_memory_spaces.size() (" ++ toString entry.chunkMemorySpaces.length ++
      ") != new chunk_memory_spaces.size() (" ++ toString pin.chunkMemorySpaces.length ++ ")")
  else
    ((entry.chunkMemorySpaces.zip pin.chunkMemorySpaces).findIdx? fun x => x.1 ≠ x.2).map fun i =>
      "[sirius_scan_manager::insert_pinned_entry] merge mismatch — chunk_memory_spaces[" ++
        toString i ++ "] differs between existing and new entry"

def merge (entry : PinnedEntry) (pin : Pin) : PinnedEntry × Option String :=
  match mergeMismatch entry pin with
  | some message => (entry, some message)
  | none =>
    -- Which columns are new is decided before the first chunk is added.
    let isNew := fun name => (entry.dataBatchesByColumn name).isNone
    match addTables isNew pin.columnNames pin.filePaths pin.dataTables entry.dataBatchesByColumn with
    | (data, some message) => ({ entry with dataBatchesByColumn := data }, some message)
    | (data, none) =>
      ({ entry with
        dataBatchesByColumn := data
        columnNames := entry.columnNames ++ pin.columnNames.filter (· ∉ entry.columnNames) }, none)

def build (pin : Pin) : Except String PinnedEntry :=
  match addTables (fun _ => true) pin.columnNames pin.filePaths pin.dataTables fun _ => none with
  | (_, some message) => .error message
  | (data, none) => .ok {
      columnNames := pin.columnNames
      filePaths := pin.filePaths
      dataBatchesByColumn := data
      chunkMemorySpaces := pin.chunkMemorySpaces
      numRows := pin.numRows
      isPartial := pin.isPartial }

/-- The new columns go to the entry that is there. -/
def Merges (entry : PinnedEntry) (pin : Pin) : Prop :=
  entry.numRows = pin.numRows ∧ entry.isPartial = pin.isPartial

instance (entry : PinnedEntry) (pin : Pin) : Decidable (Merges entry pin) :=
  inferInstanceAs (Decidable (_ ∧ _))

/-- `insert_pinned_entry`: the entries after the call, and the exception it has thrown. -/
def insertPinnedEntry (entries : PinnedEntries) (pin : Pin) : PinnedEntries × Option String :=
  if pin.chunkMemorySpaces.length ≠ pin.dataTables.length then
    (entries, some ("[sirius_scan_manager::insert_pinned_entry] chunk_memory_spaces.size() (" ++
      toString pin.chunkMemorySpaces.length ++ ") must equal data_tables.size() (" ++
      toString pin.dataTables.length ++ ")"))
  else
    match (entries pin.name).filter fun entry => decide (Merges entry pin) with
    | some entry =>
      let (entry, message) := merge entry pin
      (Function.update entries pin.name (some entry), message)
    | none =>
      -- The stale entry is gone before the new one is built.
      match build pin with
      | .error message => (Function.update entries pin.name none, some message)
      | .ok entry => (Function.update entries pin.name (some entry), none)

inductive PinLabel where
  | pin (pin : Pin)
  /-- `remove_pinned_entry` -/
  | unpin (name : String)

def pinStep (entries : PinnedEntries) : PinLabel → Option PinnedEntries
  | .pin pin => some (insertPinnedEntry entries pin).1
  | .unpin name => some (Function.update entries name none)

/-! ## Scans -/

/-- `cached_split_provider`: for each chunk its columns, and the memory spaces. -/
structure CachedSplitProvider where
  batches : List (List ColumnChunk)
  chunkMemorySpaces : List (Option Nat)

/-- The constructor turns columns of chunks into chunks of columns. It throws if the columns differ in
the number of chunks. -/
def cachedSplitProvider (columnsPerRequest : List (List ColumnChunk))
    (chunkMemorySpaces : List (Option Nat)) : Option CachedSplitProvider :=
  let numBatches := (columnsPerRequest.head?.getD []).length
  if columnsPerRequest.all fun chunks => chunks.length = numBatches then
    some {
      batches := (List.range numBatches).map fun b => columnsPerRequest.filterMap fun chunks => chunks[b]?
      chunkMemorySpaces }
  else none

/-- `try_make_cached_provider` for a scan of the columns `dataColumns`. The entries are visited in some
order and the first one for the files of the scan decides; exceptions are caught. -/
def tryMakeCachedProvider (entries : PinnedEntries) (order : List String)
    (filePaths dataColumns : List String) : Option CachedSplitProvider := do
  let entry ← order.findSome? fun name =>
    (entries name).filter fun entry => entry.filePaths.isPerm filePaths
  if entry.isPartial then none
  else if entry.chunkMemorySpaces.isEmpty || entry.chunkMemorySpaces.any Option.isNone then none
  else
    let columnsPerRequest ← dataColumns.mapM entry.dataBatchesByColumn
    cachedSplitProvider columnsPerRequest entry.chunkMemorySpaces

/-- `produce_split`: the columns of a chunk as a `cudf::table_view`, which throws if they differ in
their number of rows, with the memory space of the chunk. -/
def CachedSplitProvider.produceSplit (provider : CachedSplitProvider) (batchIdx : Nat) :
    Option (List ColumnChunk × Option Nat) := do
  let chunk ← provider.batches[batchIdx]?
  let space ← provider.chunkMemorySpaces[batchIdx]?
  if chunk.all fun column => column.rows.length = (chunk.head?.map (·.rows.length)).getD 0 then
    some (chunk, space)
  else none

/-! ## What the loops add -/

theorem addColumns_apply (isNew : String → Bool) (files : List String) (rows : List Nat)
    {names : List String} (hnodup : names.Nodup) (data : Columns) (c : String) :
    addColumns isNew files rows names data c =
      if c ∈ names ∧ isNew c = true then some ((data c).getD [] ++ [⟨files, c, rows⟩]) else data c := by
  induction names generalizing data with
  | nil => simp [addColumns]
  | cons name names ih =>
    obtain ⟨hname, hnodup⟩ := nodup_cons.1 hnodup
    rw [addColumns, ih hnodup]
    by_cases hc : c = name
    · subst hc
      by_cases hnew : isNew c = true
      · simp [hname, hnew, emplaceBack]
      · simp [hname, hnew]
    · have hdata : (if isNew name then emplaceBack data name ⟨files, name, rows⟩ else data) c =
          data c := by
        split
        · exact update_of_ne hc _ _
        · rfl
      simp [hc, hdata]

def chunksOf (files : List String) (layout : List (List Nat)) (c : String) : List ColumnChunk :=
  layout.map fun rows => ⟨files, c, rows⟩

section AddTables

variable {isNew : String → Bool} {names files : List String}

/-- Only new columns get chunks, also if the loop throws. -/
theorem addTables_of_not_new (files : List String) (hnodup : names.Nodup) {c : String}
    (hc : ¬ (c ∈ names ∧ isNew c = true)) (tables : List (Option Table)) (data : Columns) :
    (addTables isNew names files tables data).1 c = data c := by
  induction tables generalizing data with
  | nil => rfl
  | cons table tables ih =>
    cases table with
    | none => exact ih data
    | some table =>
      rw [addTables]
      split
      · rfl
      · rw [ih, addColumns_apply isNew files table.rows hnodup, if_neg hc]

theorem addTables_of_new (hnodup : names.Nodup) {c : String} (hc : c ∈ names ∧ isNew c = true)
    {tables : List (Option Table)} {data : Columns}
    (hnone : (addTables isNew names files tables data).2 = none) :
    ((addTables isNew names files tables data).1 c).getD [] =
      (data c).getD [] ++ chunksOf files (tables.filterMap fun table => table.map Table.rows) c := by
  induction tables generalizing data with
  | nil => simp [addTables, chunksOf]
  | cons table tables ih =>
    cases table with
    | none => exact ih hnone
    | some table =>
      rw [addTables] at hnone ⊢
      split at hnone
      · cases hnone
      next hcount =>
        rw [if_neg hcount, ih hnone, addColumns_apply isNew files table.rows hnodup, if_pos hc]
        simp [chunksOf]

theorem addTables_eq_none (isNew : String → Bool) (files : List String)
    {tables : List (Option Table)} (h : ∀ table, some table ∈ tables → table.numColumns = names.length) (data : Columns) :
    (addTables isNew names files tables data).2 = none := by
  induction tables generalizing data with
  | nil => rfl
  | cons table tables ih =>
    have htables := fun t ht => h t (mem_cons_of_mem table ht)
    cases table with
    | none => exact ih htables data
    | some table =>
      rw [addTables, if_neg (not_not.2 (h table (.head _)))]
      exact ih htables _

end AddTables

/-! ## Alignment -/

/-- All columns are read from the files of the entry, with the same rows in each chunk. -/
def PinnedEntry.Aligned (entry : PinnedEntry) : Prop :=
  ∃ layout, ∀ c chunks, entry.dataBatchesByColumn c = some chunks →
    chunks = chunksOf entry.filePaths layout c

/-- What the code does not compare. Columns are added only from the files of the entry and in its
layout, and no table of the pin makes the loop throw. -/
def Compatible (entries : PinnedEntries) : PinLabel → Prop
  | .unpin _ => True
  | .pin pin => ∀ entry, entries pin.name = some entry → Merges entry pin →
      (∃ c ∈ pin.columnNames, entry.dataBatchesByColumn c = none) →
      pin.filePaths = entry.filePaths ∧
      (∀ table, some table ∈ pin.dataTables → table.numColumns = pin.columnNames.length) ∧
      ∀ c chunks, entry.dataBatchesByColumn c = some chunks →
        chunks.map ColumnChunk.rows = pin.layout

variable {entry : PinnedEntry} {entries : PinnedEntries} {dataColumns : List String}

theorem build_aligned {pin : Pin} (h : build pin = .ok entry) : entry.Aligned := by
  unfold build at h
  split at h
  · cases h
  next data hdata =>
    cases h
    refine ⟨pin.layout, ?_⟩
    intro c chunks hc
    change data c = some chunks at hc
    have hnone := congrArg Prod.snd hdata
    have hfst : data = _ := (congrArg Prod.fst hdata).symm
    by_cases hmem : c ∈ pin.columnNames
    · have hnew := addTables_of_new pin.nodup ⟨hmem, rfl⟩ hnone
      rw [← hfst, hc] at hnew
      exact hnew
    · have hold : data c = none := by
        rw [hfst]
        exact addTables_of_not_new pin.filePaths pin.nodup (fun h => hmem h.1) pin.dataTables _
      rw [hold] at hc
      cases hc

/-- The columns of a merge: those that were there, and the new ones of the pin. -/
theorem merge_filePaths (entry : PinnedEntry) (pin : Pin) :
    (merge entry pin).1.filePaths = entry.filePaths := by
  unfold merge
  split
  · rfl
  · dsimp only
    split <;> rfl

theorem merge_data (entry : PinnedEntry) (pin : Pin) :
    (merge entry pin).1.dataBatchesByColumn = entry.dataBatchesByColumn ∨
      (merge entry pin).1.dataBatchesByColumn =
        (addTables (fun name => (entry.dataBatchesByColumn name).isNone) pin.columnNames
          pin.filePaths pin.dataTables entry.dataBatchesByColumn).1 := by
  unfold merge
  split
  · exact .inl rfl
  · right
    dsimp only
    split
    next data message hdata =>
      rw [hdata]
    next data hdata =>
      rw [hdata]

theorem merge_aligned {pin : Pin} (hentry : entries pin.name = some entry)
    (haligned : entry.Aligned) (hmerges : Merges entry pin) (hok : Compatible entries (.pin pin)) :
    (merge entry pin).1.Aligned := by
  obtain ⟨layout, hlayout⟩ := haligned
  unfold PinnedEntry.Aligned
  rw [merge_filePaths]
  rcases merge_data entry pin with hdata | hdata
  · rw [hdata]
    exact ⟨layout, hlayout⟩
  rw [hdata]
  let isNew : String → Bool := fun name => (entry.dataBatchesByColumn name).isNone
  by_cases hnew : ∃ c ∈ pin.columnNames, entry.dataBatchesByColumn c = none
  · obtain ⟨hfiles, hcounts, hrows⟩ := hok entry hentry hmerges hnew
    have hnone := addTables_eq_none isNew pin.filePaths hcounts entry.dataBatchesByColumn
    refine ⟨pin.layout, ?_⟩
    intro c chunks hc
    by_cases hcnew : c ∈ pin.columnNames ∧ isNew c = true
    · have hadd := addTables_of_new pin.nodup hcnew hnone
      rw [hc, isNone_iff_eq_none.1 hcnew.2, hfiles] at hadd
      exact hadd
    · -- A column that was there keeps its chunks.
      have hkeep := addTables_of_not_new pin.filePaths pin.nodup hcnew pin.dataTables
        entry.dataBatchesByColumn
      rw [hkeep] at hc
      have hchunks := hlayout c chunks hc
      have hmap := hrows c chunks hc
      rw [hchunks] at hmap ⊢
      rw [← hmap]
      simp [chunksOf]
  · refine ⟨layout, ?_⟩
    intro c chunks hc
    have hold : ¬ (c ∈ pin.columnNames ∧ isNew c = true) := fun h =>
      hnew ⟨c, h.1, isNone_iff_eq_none.1 h.2⟩
    have hkeep := addTables_of_not_new pin.filePaths pin.nodup hold pin.dataTables
      entry.dataBatchesByColumn
    rw [hkeep] at hc
    exact hlayout c chunks hc

def AllAligned (entries : PinnedEntries) : Prop :=
  ∀ name entry, entries name = some entry → entry.Aligned

theorem AllAligned.update (h : AllAligned entries) (name : String) {entry : Option PinnedEntry}
    (hentry : ∀ e, entry = some e → e.Aligned) :
    AllAligned (update entries name entry) := by
  intro name' e he
  by_cases hname : name' = name
  · subst hname
    rw [update_self] at he
    exact hentry e he
  · rw [update_of_ne hname] at he
    exact h name' e he

/-- **Pinning.** A compatible pin keeps the entries aligned, and so does one that throws. -/
theorem AllAligned.step {entries' : PinnedEntries} {l : PinLabel} (h : AllAligned entries)
    (hok : Compatible entries l) (hstep : pinStep entries l = some entries') :
    AllAligned entries' := by
  cases l with
  | unpin name =>
    cases hstep
    exact h.update name (by simp)
  | pin pin =>
    cases hstep
    unfold insertPinnedEntry
    split
    · exact h
    split
    next entry hentry =>
      obtain ⟨hentry, hmerges⟩ := filter_eq_some_iff.1 hentry
      apply h.update pin.name
      intro e he
      cases he
      exact merge_aligned hentry (h _ _ hentry) (of_decide_eq_true hmerges) hok
    · split
      · exact h.update pin.name (by simp)
      next entry hbuild =>
        apply h.update pin.name
        intro e he
        cases he
        exact build_aligned hbuild

/-! ## Batches -/

theorem produceSplit_rows {files : List String} {layout : List (List Nat)}
    {spaces : List (Option Nat)} {provider : CachedSplitProvider}
    (hprovider : cachedSplitProvider (dataColumns.map (chunksOf files layout)) spaces = some provider)
    {i : Nat} {columns : List ColumnChunk} {space : Option Nat}
    (hsplit : provider.produceSplit i = some (columns, space)) :
    ∃ rows, columns = dataColumns.map fun c => ⟨files, c, rows⟩ := by
  unfold cachedSplitProvider at hprovider
  dsimp only at hprovider
  split at hprovider
  · cases hprovider
    simp only [CachedSplitProvider.produceSplit, bind_eq_bind, bind_eq_some_iff] at hsplit
    obtain ⟨chunk, hchunk, space, -, hsplit⟩ := hsplit
    split at hsplit
    · cases hsplit
      rw [getElem?_map, map_eq_some_iff] at hchunk
      obtain ⟨b, hb, rfl⟩ := hchunk
      cases dataColumns with
      | nil => exact ⟨[], rfl⟩
      | cons c dataColumns =>
        have hlt : b < layout.length := by
          have := mem_range.1 (mem_of_getElem? hb)
          simpa [chunksOf] using this
        refine ⟨layout[b], ?_⟩
        rw [filterMap_map]
        have hget : (fun c => (chunksOf files layout c)[b]?) =
            fun c => some (⟨files, c, layout[b]⟩ : ColumnChunk) := by
          funext c
          simp [chunksOf, hlt]
        show filterMap (fun c => (chunksOf files layout c)[b]?) _ = _
        rw [hget, filterMap_eq_map']
    · cases hsplit
  · cases hprovider

theorem tryMakeCachedProvider_eq_some {order filePaths : List String}
    {provider : CachedSplitProvider}
    (h : tryMakeCachedProvider entries order filePaths dataColumns = some provider) :
    ∃ name entry columnsPerRequest, entries name = some entry ∧ entry.filePaths.Perm filePaths ∧
      dataColumns.mapM entry.dataBatchesByColumn = some columnsPerRequest ∧
      cachedSplitProvider columnsPerRequest entry.chunkMemorySpaces = some provider := by
  unfold tryMakeCachedProvider at h
  obtain ⟨entry, hfind, h⟩ := bind_eq_some_iff.1 h
  obtain ⟨name, -, hname⟩ := exists_of_findSome?_eq_some hfind
  obtain ⟨hentry, hfiles⟩ := filter_eq_some_iff.1 hname
  split at h
  · cases h
  split at h
  · cases h
  obtain ⟨columnsPerRequest, hcolumns, hprovider⟩ := bind_eq_some_iff.1 h
  exact ⟨name, entry, columnsPerRequest, hentry, isPerm_iff.1 hfiles, hcolumns, hprovider⟩

theorem mapM_chunks {layout : List (List Nat)}
    (haligned : ∀ c chunks, entry.dataBatchesByColumn c = some chunks →
      chunks = chunksOf entry.filePaths layout c)
    {columnsPerRequest : List (List ColumnChunk)}
    (h : dataColumns.mapM entry.dataBatchesByColumn = some columnsPerRequest) :
    columnsPerRequest = dataColumns.map (chunksOf entry.filePaths layout) := by
  have hforall := Lib.mapM_eq_some_iff.1 h
  clear h
  induction hforall with
  | nil => rfl
  | cons hc _ ih => rw [haligned _ _ hc, ih, map_cons]

/-- **Alignment.** In every run of pins that are compatible with the entries they meet, the entries
are aligned, and so is every batch that a scan gets. -/
theorem pins_stay_aligned {entries : PinnedEntries}
    (hrun : Run pinStep Compatible (fun _ => none) entries) :
    (∀ name entry, entries name = some entry →
      (∀ c chunks, entry.dataBatchesByColumn c = some chunks →
        ∀ chunk ∈ chunks, chunk.files = entry.filePaths ∧ chunk.column = c) ∧
      ∀ c chunks c' chunks', entry.dataBatchesByColumn c = some chunks →
        entry.dataBatchesByColumn c' = some chunks' →
        chunks.map (·.rows.length) = chunks'.map (·.rows.length)) ∧
    ∀ order filePaths dataColumns provider i columns space,
      tryMakeCachedProvider entries order filePaths dataColumns = some provider →
      provider.produceSplit i = some (columns, space) →
      ∃ files rows, files.Perm filePaths ∧
        columns = dataColumns.map fun c => ⟨files, c, rows⟩ := by
  have haligned : AllAligned entries :=
    hrun.invariant (by intro _ _ h; cases h) fun h hok hstep => h.step hok hstep
  refine ⟨?_, ?_⟩
  · intro name entry hentry
    obtain ⟨layout, hlayout⟩ := haligned name entry hentry
    refine ⟨?_, ?_⟩
    · intro c chunks hc chunk hchunk
      rw [hlayout c chunks hc] at hchunk
      obtain ⟨rows, -, rfl⟩ := mem_map.1 hchunk
      exact ⟨rfl, rfl⟩
    · intro c chunks c' chunks' hc hc'
      rw [hlayout c chunks hc, hlayout c' chunks' hc']
      simp [chunksOf]
  · intro order filePaths dataColumns provider i columns space hprovider hsplit
    obtain ⟨name, entry, columnsPerRequest, hentry, hfiles, hcolumns, hprovider⟩ :=
      tryMakeCachedProvider_eq_some hprovider
    obtain ⟨layout, hlayout⟩ := haligned name entry hentry
    rw [mapM_chunks hlayout hcolumns] at hprovider
    obtain ⟨rows, hrows⟩ := produceSplit_rows hprovider hsplit
    exact ⟨entry.filePaths, rows, hfiles, hrows⟩

/-- A pin of one column of table `t` from one file in two chunks. -/
def pinColumn (column file : String) (rows rows' : List Nat) : Pin where
  name := "t"
  columnNames := [column]
  filePaths := [file]
  dataTables := [some ⟨1, rows⟩, some ⟨1, rows'⟩]
  chunkMemorySpaces := [some 0, some 0]
  isPartial := false
  nodup := by simp

/-- A second column of the same file in the same chunks. -/
theorem pins_stay_aligned_two_columns : ∃ entries provider,
    Run pinStep Compatible (fun _ => none) entries ∧
      tryMakeCachedProvider entries ["t"] ["a.parquet"] ["x", "y"] = some provider ∧
      provider.produceSplit 0 = some
        ([⟨["a.parquet"], "x", [0, 1]⟩, ⟨["a.parquet"], "y", [0, 1]⟩], some 0) ∧
      ∃ files rows, files.Perm ["a.parquet"] ∧
        ([⟨["a.parquet"], "x", [0, 1]⟩, ⟨["a.parquet"], "y", [0, 1]⟩] : List ColumnChunk) =
          ["x", "y"].map fun c => ⟨files, c, rows⟩ := by
  have hfirst : Compatible (fun _ => none) (.pin (pinColumn "x" "a.parquet" [0, 1] [2])) := by
    intro _ h
    cases h
  have hsecond : Compatible (insertPinnedEntry (fun _ => none)
      (pinColumn "x" "a.parquet" [0, 1] [2])).1 (.pin (pinColumn "y" "a.parquet" [0, 1] [2])) := by
    intro entry hentry _ _
    cases hentry
    refine ⟨rfl, ?_, ?_⟩
    · intro table htable
      simp only [pinColumn, mem_cons, some.injEq, not_mem_nil, or_false] at htable
      rcases htable with rfl | rfl <;> rfl
    · intro c chunks hc
      by_cases hx : c = "x"
      · subst hx
        cases hc
        rfl
      · have hnone : (addTables (fun _ => true) ["x"] ["a.parquet"]
            (pinColumn "x" "a.parquet" [0, 1] [2]).dataTables fun _ => none).1 c = none :=
          addTables_of_not_new ["a.parquet"] (by simp) (by simpa using hx) _ _
        cases hnone.symm.trans hc
  have hrun : Run pinStep Compatible (fun _ => none) _ :=
    ((Run.refl _).tail _ hfirst rfl).tail _ hsecond rfl
  refine ⟨_, _, hrun, rfl, rfl, ?_⟩
  exact (pins_stay_aligned hrun).2 ["t"] ["a.parquet"] ["x", "y"] _ 0 _ (some 0) rfl rfl

/-- The second pin is of another file with as many rows. Its column ends up in the entry of the first
file: a scan of that file gets rows of both files side by side, or columns of different lengths if the
chunks are cut elsewhere. -/
theorem merge_mixes_tables :
    (∃ entries provider, Run pinStep (fun _ _ => True) (fun _ => none) entries ∧
      tryMakeCachedProvider entries ["t"] ["a.parquet"] ["x", "y"] = some provider ∧
      provider.produceSplit 0 = some
        ([⟨["a.parquet"], "x", [0, 1]⟩, ⟨["b.parquet"], "y", [0, 1]⟩], some 0)) ∧
    ∃ entries entry, Run pinStep (fun _ _ => True) (fun _ => none) entries ∧
      entries "t" = some entry ∧
      (entry.dataBatchesByColumn "x").map (List.map (·.rows.length)) = some [2, 1] ∧
      (entry.dataBatchesByColumn "y").map (List.map (·.rows.length)) = some [1, 2] := by
  refine ⟨?_, ?_⟩
  · have hrun : Run pinStep (fun _ _ => True) (fun _ => none) _ :=
      ((Run.refl _).tail (.pin (pinColumn "x" "a.parquet" [0, 1] [2])) trivial rfl).tail
        (.pin (pinColumn "y" "b.parquet" [0, 1] [2])) trivial rfl
    exact ⟨_, _, hrun, rfl, rfl⟩
  · have hrun : Run pinStep (fun _ _ => True) (fun _ => none) _ :=
      ((Run.refl _).tail (.pin (pinColumn "x" "a.parquet" [0, 1] [2])) trivial rfl).tail
        (.pin (pinColumn "y" "a.parquet" [0] [1, 2])) trivial rfl
    exact ⟨_, _, hrun, rfl, rfl, rfl⟩

end Sirius.Pinned
