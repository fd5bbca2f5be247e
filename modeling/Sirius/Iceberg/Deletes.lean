import Mathlib.Algebra.Order.Ring.Nat
import Mathlib.Data.List.Sort
import Sirius.Lib.Numbered

/-!
# Row-level deletes of an Iceberg scan

An Iceberg table marks rows as deleted in two ways: by their position in a data file, and by the
values of some key columns (`src/op/scan/iceberg_scan_task.cpp`, `positional_delete_filter.cpp`,
`equality_delete_filter.cpp`). The scan appends the key columns it needs to the columns that the query
projects, and the hook of `iceberg_delete_pipeline` runs over every batch that was read: first the
positional filter, then one filter for each group of equality deletes, and at last the appended columns
are cut off.

The module translates these functions and says what they are for in terms of the rows of the file
(`ScanOp.liveRows`).
-/

namespace Sirius.Iceberg

open Lib List

variable {V : Type}

/-- A row of a data file: the cell of every column of the table, `none` for NULL. -/
abbrev Row (V : Type) := Nat → Option V

/-! ## Tables of cuDF -/

structure Table (V : Type) where
  numColumns : Nat
  rows : List (List (Option V))
  width : ∀ r ∈ rows, r.length = numColumns

namespace Table

variable (t : Table V)

def applyBooleanMask (mask : List Bool) : Table V where
  numColumns := t.numColumns
  rows := applyMask t.rows mask
  width r hr := t.width r (mem_of_mem_applyMask hr)

def select (indices : List Nat) : List (List (Option V)) :=
  t.rows.map fun r => indices.map fun i => r.getD i none

def resize (keep : Nat) : Table V where
  numColumns := min keep t.numColumns
  rows := t.rows.map (List.take keep)
  width r hr := by
    obtain ⟨r', hr', rfl⟩ := List.mem_map.1 hr
    rw [List.length_take, t.width r' hr']

@[simp]
theorem resize_rows (keep : Nat) : (t.resize keep).rows = t.rows.map (take keep) := rfl

/-- The end of the hook: the extra columns are cut off, unless nothing would be left. -/
def stripExtra (extra : Nat) : Table V :=
  if 0 < extra then
    let keep : Int := t.numColumns - extra
    if 0 < keep ∧ keep < t.numColumns then t.resize keep.toNat else t
  else t

/-- What the reader returns for the columns `selected` of some rows of the file. -/
def read (selected : List Nat) (rows : List (Row V)) : Table V where
  numColumns := selected.length
  rows := rows.map fun r => selected.map r
  width r hr := by
    obtain ⟨r', -, rfl⟩ := List.mem_map.1 hr
    rw [List.length_map]

end Table

/-! ## Delete data -/

/-- Equality-delete files with the same key columns and the same sequence number. -/
structure EqualityDeleteGroup (V : Type) where
  keyNames : List String
  keyFieldIds : List (Option Int) := []
  deleteTable : List (List (Option V))
  sequenceNumber : Int := 0

/-- A key column of a group: its name and its field identifier, if there is one. -/
structure Key where
  name : String
  fieldId : Option Int
  deriving DecidableEq, Repr

def EqualityDeleteGroup.keys (g : EqualityDeleteGroup V) : List Key :=
  g.keyNames.zipIdx.map fun (name, k) => ⟨name, g.keyFieldIds[k]?.join⟩

structure IcebergDeleteData (V : Type) where
  positionalDeletes : List (String × List Int) := []
  equalityDeleteGroups : List (EqualityDeleteGroup V) := []
  dataFileSequenceNumbers : List (String × Int) := []
  sorted : ∀ e ∈ positionalDeletes, e.2.Pairwise (· ≤ ·)

namespace IcebergDeleteData

variable (dd : IcebergDeleteData V)

def isEmpty : Bool := dd.positionalDeletes.isEmpty && dd.equalityDeleteGroups.isEmpty

/-! ## Filters -/

/-- `std::lower_bound` on a sorted range, as an offset. -/
def lowerBound (positions : List Int) (v : Int) : Nat := (positions.takeWhile (· < v)).length

def keepMask (positions : List Int) (firstRow : Int) (numRows : Nat) : List Bool :=
  positions.foldl (fun keep p => keep.set (p - firstRow).toNat false) (List.replicate numRows true)

def positionalApply (tbl : Table V) (path : String) (firstRow : Int) : Table V :=
  match dd.positionalDeletes.lookup path with
  | none => tbl
  | some positions =>
    if positions.isEmpty then tbl
    else
      let lastRow := firstRow + tbl.rows.length
      let lo := lowerBound positions firstRow
      let hi := lo + lowerBound (positions.drop lo) lastRow
      if lo = hi then tbl
      else tbl.applyBooleanMask (keepMask ((positions.take hi).drop lo) firstRow tbl.rows.length)

def skips (g : EqualityDeleteGroup V) (path : String) : Bool :=
  0 < g.sequenceNumber &&
    match dd.dataFileSequenceNumbers.lookup path with
    | some seq => 0 < seq && g.sequenceNumber ≤ seq
    | none => false

variable [DecidableEq V]

/-- `distinct_hash_join::left_join`: for every probe row the index of the build row that equals it,
if there is one. NULLs are equal to each other. -/
def leftJoin (build probe : List (List (Option V))) : List (Option Nat) :=
  probe.map fun key => build.findIdx? (· == key)

def makeAntiJoinMask (buildIndices : List (Option Nat)) : List Bool := buildIndices.map Option.isNone

def equalityApply (g : EqualityDeleteGroup V) (dataKeyIndices : List Nat) (tbl : Table V)
    (path : String) : Table V :=
  if tbl.rows.isEmpty then tbl
  else if dd.skips g path then tbl
  else if dataKeyIndices.any (tbl.numColumns ≤ ·) then tbl
  else tbl.applyBooleanMask (makeAntiJoinMask (leftJoin g.deleteTable (tbl.select dataKeyIndices)))

inductive Filter where
  | positional
  | equality (groupIndex : Nat) (dataKeyIndices : List Nat)
  deriving DecidableEq, Repr

def apply (tbl : Table V) (path : String) (firstRow : Int) : Filter → Table V
  | .positional => dd.positionalApply tbl path firstRow
  | .equality groupIndex dataKeyIndices =>
    match dd.equalityDeleteGroups[groupIndex]? with
    | some g => dd.equalityApply g dataKeyIndices tbl path
    | none => tbl

def buildHook (filters : List Filter) (extra : Nat) (tbl : Table V) (path : String) (firstRow : Int) :
    Table V :=
  (filters.foldl (fun t f => dd.apply t path firstRow f) tbl).stripExtra extra

end IcebergDeleteData

/-! ## The scan -/

/-- The scan operator, with the field identifiers of the columns in the data file. `none` in
`columnIds` is a virtual column. -/
structure ScanOp where
  names : List String
  fieldId : String → Option Int
  columnIds : List (Option Nat)
  projectionIds : List Nat
  names_nodup : names.Nodup
  fieldId_inj : ∀ m ∈ names, ∀ n ∈ names, ∀ id, fieldId m = some id → fieldId n = some id → m = n
  columnIds_lt : ∀ c, some c ∈ columnIds → c < names.length

namespace ScanOp

variable (scan : ScanOp)

/-- `make_selected_column_indices`: the columns of the query, each once. -/
def makeSelectedColumnIndices : List Nat :=
  let pushUnique (selected : List Nat) (column : Option Nat) : List Nat :=
    match column with
    | none => selected
    | some c => if c ∈ selected then selected else selected ++ [c]
  if scan.projectionIds.isEmpty then scan.columnIds.foldl pushUnique []
  else
    scan.columnIds.zipIdx.foldl
      (fun selected (c, i) => if i ∈ scan.projectionIds then pushUnique selected c else selected) []

/-- The body of the loops of `prepare` over the keys of all groups. -/
def forceKey (state : List Nat × Nat) (name : String) : List Nat × Nat :=
  match scan.names.idxOf? name with
  | none => state
  | some c => if c ∈ state.1 then state else (state.1 ++ [c], state.2 + 1)

/-- `prepare`: the selected columns, and how many of them were appended. -/
def prepare (keys : List (List Key)) : List Nat × Nat :=
  (keys.flatten.map Key.name).foldl scan.forceKey (scan.makeSelectedColumnIndices, 0)

/-- `data_field_id_to_idx`, with the last insertion first. -/
def dataFieldIdToIdx (selected : List Nat) : List (Int × Nat) :=
  selected.zipIdx.foldl
    (fun m (c, j) =>
      match scan.names[c]?.bind scan.fieldId with
      | some id => (id, j) :: m
      | none => m) []

/-- Where a key column stands in the table that was read: by field identifier, else by name. -/
def findKey (selected : List Nat) (key : Key) : Option Nat :=
  (key.fieldId.bind fun id => (scan.dataFieldIdToIdx selected).lookup id).or
    (selected.findIdx? fun c => scan.names[c]? = some key.name)

variable [DecidableEq V] (dd : IcebergDeleteData V)

def selected : List Nat := (scan.prepare (dd.equalityDeleteGroups.map (·.keys))).1

/-- The filters that `build_delete_pipeline` adds. A group with a key that is not found is left
out. -/
def filters : List IcebergDeleteData.Filter :=
  (if dd.positionalDeletes.isEmpty then [] else [.positional]) ++
    dd.equalityDeleteGroups.zipIdx.filterMap fun (g, gi) =>
      (g.keys.mapM (scan.findKey (scan.selected dd))).map (.equality gi)

/-- `build_delete_pipeline`: the hook, if one is installed. -/
def buildDeletePipeline : Option (Table V → String → Int → Table V) :=
  if dd.isEmpty then none
  else if (scan.filters dd).isEmpty then none
  else some (dd.buildHook (scan.filters dd)
    (scan.prepare (dd.equalityDeleteGroups.map (·.keys))).2)

def scanBatch (path : String) (firstRow : Nat) (rows : List (Row V)) : Table V :=
  match scan.buildDeletePipeline dd with
  | none => .read (scan.selected dd) rows
  | some hook => hook (.read (scan.selected dd) rows) path firstRow

def scanBatches (path : String) : Nat → List (List (Row V)) → List (List (Option V))
  | _, [] => []
  | firstRow, b :: bs =>
    (scan.scanBatch dd path firstRow b).rows ++ scanBatches path (firstRow + b.length) bs

/-! ## What the deletes mean -/

def keyColumn (key : Key) : Option Nat :=
  (key.fieldId.bind fun id => scan.names.findIdx? fun n => scan.fieldId n = some id).or
    (scan.names.idxOf? key.name)

def keyColumns (keys : List Key) : Option (List Nat) := keys.mapM scan.keyColumn

end ScanOp

namespace IcebergDeleteData

variable (dd : IcebergDeleteData V)

def positions (path : String) : List Int := (dd.positionalDeletes.lookup path).getD []

/-- A group applies to a data file unless both sequence numbers are known and the group's is not
greater. -/
def Applies (g : EqualityDeleteGroup V) (path : String) : Prop :=
  ∀ seq, dd.dataFileSequenceNumbers.lookup path = some seq → 0 < seq → 0 < g.sequenceNumber →
    seq < g.sequenceNumber

theorem skips_eq_false_iff {g : EqualityDeleteGroup V} {path : String} :
    dd.skips g path = false ↔ dd.Applies g path := by
  rw [skips, Applies]
  cases hseq : dd.dataFileSequenceNumbers.lookup path with
  | none => simp
  | some seq => simp [imp.swap (a := 0 < g.sequenceNumber)]

end IcebergDeleteData

namespace ScanOp

variable (scan : ScanOp) [DecidableEq V] (dd : IcebergDeleteData V)

def Matches (g : EqualityDeleteGroup V) (r : Row V) : Prop :=
  ∃ cols, scan.keyColumns g.keys = some cols ∧ cols.map r ∈ g.deleteTable

def Live (path : String) (i : Nat) (r : Row V) : Prop :=
  (i : Int) ∉ dd.positions path ∧
    ∀ g ∈ dd.equalityDeleteGroups, dd.Applies g path → ¬scan.Matches g r

open Classical in
/-- The live rows of a data file, in order, with the columns of the query. -/
noncomputable def liveRows (path : String) (rows : List (Row V)) : List (List (Option V)) :=
  (filterIdx (fun i r => decide (scan.Live dd path i r)) 0 rows).map fun r =>
    scan.makeSelectedColumnIndices.map r

/-- The deletes with these keys are applied exactly: whatever the data file, its deleted positions and
the deleted keys are, and however the file is cut into batches, the scan returns the live rows. -/
def DeletesExactly (V : Type) [DecidableEq V] (keys : List (List Key)) : Prop :=
  ∀ (dd : IcebergDeleteData V), dd.equalityDeleteGroups.map (·.keys) = keys →
    ∀ (path : String) (batches : List (List (Row V))),
      scan.scanBatches dd path 0 batches = scan.liveRows dd path batches.flatten

end ScanOp

end Sirius.Iceberg
