import Mathlib.Algebra.BigOperators.Group.List.Lemmas
import Mathlib.Algebra.Order.Ring.Nat
import Sirius.Lib.Grouping

/-!
# Hash partitioning of a batch

`gpu_partition_impl::hash_partition` casts the key columns that need it, appends them to the table, lets
cuDF reorder the rows by the hash of the keys, and cuts the result into one batch for each partition. The
hash of a cell depends on its type, so that the casts have to give both sides of a join the same types.

`hashPartition_ok` says what comes out if the casts can be made: the rows of batch `i` are the rows whose
keys hash to `i`. cuDF casts between types of fixed width only; for others it throws.
-/

namespace Sirius.Partition

open Lib List

inductive CudfType where
  | int8 | int16 | int32 | int64
  | uint8 | uint16 | uint32 | uint64
  | float32 | float64
  | bool8
  | timestampDays | timestampSeconds | timestampMilliseconds | timestampMicroseconds
  | timestampNanoseconds
  | decimal32 (scale : Int) | decimal64 (scale : Int) | decimal128 (scale : Int)
  | string
  | struct
  deriving DecidableEq, Repr

def CudfType.isFixedWidth : CudfType → Bool
  | .string | .struct => false
  | _ => true

inductive PartitionError where
  | runtimeError (message : String)
  /-- `cudf::logic_error` of a cast from or to a type of variable width -/
  | castError
  deriving DecidableEq, Repr

variable {V : Type}

abbrev Row (V : Type) := List (Option V)

abbrev KeyCell (V : Type) := Option CudfType × Option V

/-- cuDF: what a cast makes of a value, the partition of a row by the hash of its key cells, and
`hash_partition`, which returns the reordered rows and the offset of each partition. -/
structure Cudf (V : Type) where
  castValue : CudfType → CudfType → V → V
  rowPartition : Nat → List (KeyCell V) → Nat
  rowPartition_lt {n : Nat} (hn : 0 < n) (key : List (KeyCell V)) : rowPartition n key < n
  hashPartition (n : Nat) (key : Row V → List (KeyCell V)) (rows : List (Row V)) :
    List (Row V) × List Nat
  hashPartition_slice {n : Nat} (key : Row V → List (KeyCell V)) (rows : List (Row V)) {i : Nat}
    (hi : i < n) :
    (((hashPartition n key rows).1.take
        (if i = n - 1 then rows.length else (hashPartition n key rows).2.getD (i + 1) 0)).drop
      ((hashPartition n key rows).2.getD i 0)).Perm
      (rows.filter fun row => rowPartition n (key row) = i)

/-- The rows, partition after partition, and where each partition starts. -/
def hashPieces (hash : List (KeyCell V) → Nat) (n : Nat) (key : Row V → List (KeyCell V))
    (rows : List (Row V)) : List (Row V) × List Nat :=
  let pieces := (List.range n).map fun i => groupOf (fun row => hash (key row) % n) i rows
  (pieces.flatten, (List.range n).map fun i => ((pieces.map List.length).take i).sum)

theorem hashPieces_slice (hash : List (KeyCell V) → Nat) {n : Nat} (key : Row V → List (KeyCell V))
    (rows : List (Row V)) {i : Nat} (hi : i < n) :
    (((hashPieces hash n key rows).1.take
        (if i = n - 1 then rows.length else (hashPieces hash n key rows).2.getD (i + 1) 0)).drop
      ((hashPieces hash n key rows).2.getD i 0)).Perm
      (rows.filter fun row => hash (key row) % n = i) := by
  let part := fun row => hash (key row) % n
  let pieces := (range n).map fun i => groupOf part i rows
  have hlength : pieces.length = n := by simp [pieces]
  have hget (j : Nat) (hj : j < n) : pieces[j]? = some (groupOf part j rows) := by
    simp [pieces, hj]
  have hpieces : pieces.flatten.Perm rows :=
    flatten_groupOf_range_perm fun _ _ => Nat.mod_lt _ (by omega)
  let offsets := (range n).map fun i => ((pieces.map length).take i).sum
  have hoffset (j : Nat) (hj : j < n) :
      offsets.getD j 0 = ((pieces.map length).take j).sum := by
    simp [offsets, getD_eq_getElem?_getD, hj]
  -- The last partition ends with the table.
  have hstop : (if i = n - 1 then rows.length else offsets.getD (i + 1) 0) =
      ((pieces.map length).take (i + 1)).sum := by
    split
    · rw [take_of_length_le (by simp only [length_map, hlength]; omega),
        ← length_flatten, hpieces.length_eq]
    · exact hoffset (i + 1) (by omega)
  show ((pieces.flatten.take (if i = n - 1 then rows.length else offsets.getD (i + 1) 0)).drop
    (offsets.getD i 0)).Perm _
  rw [hstop, hoffset i hi, drop_take_succ_flatten_eq_getElem pieces i (by omega)]
  exact .of_eq (getElem_eq_iff _ |>.2 (hget i hi))

def Cudf.ofHash (castValue : CudfType → CudfType → V → V) (hash : List (KeyCell V) → Nat) : Cudf V where
  castValue := castValue
  rowPartition n key := hash key % n
  rowPartition_lt hn _ := Nat.mod_lt _ hn
  hashPartition := hashPieces hash
  hashPartition_slice := hashPieces_slice hash

/-! ## The operator -/

section Operator

variable (cudf : Cudf V)

/-- A key: a column, and the type it is cast to if it is (`_partition_keys` with
`_partition_key_cast_types`). -/
structure PartitionKey where
  index : Nat
  castType : Option CudfType
  deriving DecidableEq, Repr

def castable (source : Option CudfType) (target : CudfType) : Bool :=
  source.any CudfType.isFixedWidth && target.isFixedWidth

def PartitionKey.cell (types : List CudfType) (key : PartitionKey) (row : Row V) : KeyCell V :=
  match key.castType with
  | none => (types[key.index]?, row.getD key.index none)
  | some target =>
    (some target, (row.getD key.index none).map fun value =>
      match types[key.index]? with
      | none => value
      | some source => cudf.castValue source target value)

/-- The loop over the keys: the types and rows with the casts appended, and `effective_key_idx`. -/
def appendCasts : List PartitionKey → List CudfType → List (Row V) →
    Except PartitionError (List CudfType × List (Row V) × List Nat)
  | [], types, rows => .ok (types, rows, [])
  | key :: keys, types, rows =>
    match key.castType with
    | none => do
      let (types, rows, effective) ← appendCasts keys types rows
      return (types, rows, key.index :: effective)
    | some target =>
      if castable types[key.index]? target then do
        let cast := fun row : Row V => row ++ [(key.cell cudf types row).2]
        let (allTypes, rows, effective) ← appendCasts keys (types ++ [target]) (rows.map cast)
        return (allTypes, rows, types.length :: effective)
      else .error .castError

/-- `gpu_partition_impl::hash_partition` for a batch with columns of the given types. -/
def hashPartition (types : List CudfType) (rows : List (Row V)) (keys : List PartitionKey) (n : Int) :
    Except PartitionError (List (List (Row V))) :=
  if n < 2 then
    .error (.runtimeError "`num_partitions` in `hash_partition()` should be at least 2")
  else do
    let (allTypes, allRows, effective) ← appendCasts cudf keys types rows
    let result := cudf.hashPartition n.toNat
      (fun row => effective.map fun i => (allTypes[i]?, row.getD i none)) allRows
    return (List.range n.toNat).map fun i =>
      let stop := if i = n.toNat - 1 then rows.length else result.2.getD (i + 1) 0
      ((result.1.take stop).drop (result.2.getD i 0)).map fun row => row.take types.length

end Operator

/-! ## What it computes -/

section Spec

variable {cudf : Cudf V} {types : List CudfType} {rows : List (Row V)} {keys : List PartitionKey}

/-- The casts of the keys can be made. -/
def Castable (types : List CudfType) (keys : List PartitionKey) : Prop :=
  ∀ key ∈ keys, ∀ target, key.castType = some target → castable types[key.index]? target = true

def keyCells (cudf : Cudf V) (types : List CudfType) (keys : List PartitionKey) (row : Row V) :
    List (KeyCell V) :=
  keys.map fun key => key.cell cudf types row

theorem PartitionKey.cell_append (cudf : Cudf V) {key : PartitionKey} (h : key.index < types.length)
    (more : List CudfType) {row : Row V} (hrow : row.length = types.length) (cells : Row V) :
    key.cell cudf (types ++ more) (row ++ cells) = key.cell cudf types row := by
  have hget : (types ++ more)[key.index]? = types[key.index]? := getElem?_append_left h
  have hcell : (row ++ cells).getD key.index none = row.getD key.index none := by
    simp only [getD_eq_getElem?_getD]
    rw [getElem?_append_left (by omega)]
  unfold PartitionKey.cell
  rw [hget, hcell]

theorem keyCells_append (h : ∀ key ∈ keys, key.index < types.length) (more : List CudfType)
    {row : Row V} (hrow : row.length = types.length) (cells : Row V) :
    keyCells cudf (types ++ more) keys (row ++ cells) = keyCells cudf types keys row :=
  map_congr_left fun key hkey => PartitionKey.cell_append cudf (h key hkey) more hrow cells

theorem appendCasts_ok (cudf : Cudf V) (hcast : Castable types keys)
    (hindex : ∀ key ∈ keys, key.index < types.length) (hrows : ∀ row ∈ rows, row.length = types.length) :
    ∃ more effective, ∃ extend : Row V → Row V,
      appendCasts cudf keys types rows = .ok (types ++ more, rows.map extend, effective) ∧
      ∀ row : Row V, row.length = types.length → (∃ cells, extend row = row ++ cells) ∧
        effective.map (fun i => ((types ++ more)[i]?, (extend row).getD i none)) =
          keyCells cudf types keys row := by
  induction keys generalizing types rows with
  | nil =>
    refine ⟨[], [], id, by simp [appendCasts], ?_⟩
    intro row _
    exact ⟨⟨[], by simp⟩, rfl⟩
  | cons key keys ih =>
    obtain ⟨hkey, hindex⟩ := forall_mem_cons.1 hindex
    have hcast' : Castable types keys := fun k hk => hcast k (.tail _ hk)
    cases hcastType : key.castType with
    | none =>
      obtain ⟨more, effective, extend, heq, hspec⟩ := ih hcast' hindex hrows
      refine ⟨more, key.index :: effective, extend, ?_, ?_⟩
      · simp only [appendCasts, hcastType, heq]
        rfl
      · intro row hrow
        obtain ⟨⟨cells, hcells⟩, hkeys⟩ := hspec row hrow
        refine ⟨⟨cells, hcells⟩, ?_⟩
        have hhead := PartitionKey.cell_append cudf hkey more hrow cells
        rw [map_cons, hkeys, hcells]
        rw [keyCells, keyCells, map_cons, ← hhead]
        simp only [PartitionKey.cell, hcastType]
    | some target =>
      let cast := fun row : Row V => row ++ [(key.cell cudf types row).2]
      have hcast'' : Castable (types ++ [target]) keys := by
        intro k hk t ht
        rw [getElem?_append_left (hindex k hk)]
        exact hcast' k hk t ht
      have hrows' : ∀ row ∈ rows.map cast, row.length = (types ++ [target]).length := by
        intro row hrow
        obtain ⟨row', hrow', rfl⟩ := mem_map.1 hrow
        simp [cast, hrows row' hrow']
      obtain ⟨more, effective, extend, heq, hspec⟩ :=
        ih hcast'' (fun k hk => by have := hindex k hk; simp; omega) hrows'
      refine ⟨target :: more, types.length :: effective, extend ∘ cast, ?_, ?_⟩
      · simp only [appendCasts, hcastType, hcast key (.head _) target hcastType, if_true]
        show (appendCasts cudf keys (types ++ [target]) (rows.map cast) >>= _) = _
        rw [heq]
        simp [pure, Except.pure, bind, Except.bind]
      · intro row hrow
        obtain ⟨⟨cells, hcells⟩, hkeys⟩ := hspec (cast row) (by simp [cast, hrow])
        have hextend : (extend ∘ cast) row = row ++ ((key.cell cudf types row).2 :: cells) := by
          simp [hcells, cast]
        refine ⟨⟨_, hextend⟩, ?_⟩
        -- The key stands behind the columns that were there.
        have hcell : ((types ++ target :: more)[types.length]?,
            ((extend ∘ cast) row).getD types.length none) = key.cell cudf types row := by
          rw [hextend]
          have hfst : (key.cell cudf types row).1 = some target := by
            simp only [PartitionKey.cell, hcastType]
          apply Prod.ext
          · simp [hfst]
          · simp [← hrow]
        rw [keyCells_append hindex [target] hrow, append_assoc] at hkeys
        rw [map_cons, hcell]
        exact congrArg _ hkeys

/-- **Partitions.** If the casts can be made, batch `i` holds the rows whose keys hash to `i`. -/
theorem hashPartition_ok (cudf : Cudf V) {n : Int} (hn : 2 ≤ n) (hcast : Castable types keys)
    (hindex : ∀ key ∈ keys, key.index < types.length)
    (hrows : ∀ row ∈ rows, row.length = types.length) :
    ∃ pieces, hashPartition cudf types rows keys n = .ok pieces ∧ pieces.length = n.toNat ∧
      ∀ (i : Nat) (piece : List (Row V)), pieces[i]? = some piece →
        piece.Perm (groupOf (fun row => cudf.rowPartition n.toNat (keyCells cudf types keys row)) i
          rows) := by
  obtain ⟨more, effective, extend, heq, hspec⟩ := appendCasts_ok cudf hcast hindex hrows
  simp only [hashPartition, if_neg (Int.not_lt.2 hn), heq]
  refine ⟨_, rfl, by simp, ?_⟩
  intro i piece hpiece
  rw [List.getElem?_map, Option.map_eq_some_iff] at hpiece
  obtain ⟨j, hj, rfl⟩ := hpiece
  obtain ⟨hlt, rfl⟩ := List.getElem?_eq_some_iff.1 hj
  simp only [List.length_range] at hlt
  simp only [List.getElem_range]
  have hslice := cudf.hashPartition_slice
    (fun row => effective.map fun i => ((types ++ more)[i]?, row.getD i none)) (rows.map extend) hlt
  rw [List.length_map] at hslice
  refine (hslice.map _).trans (List.Perm.of_eq ?_)
  rw [List.filter_map, List.map_map, groupOf]
  -- The columns of the casts are dropped again.
  have hfilter : rows.filter ((fun row => decide (cudf.rowPartition n.toNat
        (effective.map fun i => ((types ++ more)[i]?, row.getD i none)) = i)) ∘ extend) =
      rows.filter fun row => decide (cudf.rowPartition n.toNat (keyCells cudf types keys row) = i) := by
    apply List.filter_congr
    intro row hrow
    rw [Function.comp_apply, (hspec row (hrows row hrow)).2]
  rw [hfilter]
  conv_rhs => rw [← List.map_id (rows.filter _)]
  apply List.map_congr_left
  intro row hrow
  have hlength := hrows row (List.mem_of_mem_filter hrow)
  obtain ⟨⟨cells, hcells⟩, -⟩ := hspec row hlength
  rw [Function.comp_apply, hcells, ← hlength, List.take_left]
  rfl

theorem appendCasts_error (hcast : ¬ Castable types keys)
    (hindex : ∀ key ∈ keys, key.index < types.length) :
    appendCasts cudf keys types rows = .error .castError := by
  induction keys generalizing types rows with
  | nil => exact absurd (fun key hkey => by cases hkey) hcast
  | cons key keys ih =>
    obtain ⟨-, hindex⟩ := forall_mem_cons.1 hindex
    rw [appendCasts]
    split
    next hnone =>
      have htail : ¬ Castable types keys := by
        intro h
        apply hcast
        intro k hk target htarget
        rcases mem_cons.1 hk with rfl | hk
        · cases hnone.symm.trans htarget
        · exact h k hk target htarget
      rw [ih htail hindex]
      rfl
    next target htarget =>
      split
      next hcastable =>
        have htail : ¬ Castable (types ++ [target]) keys := by
          intro h
          apply hcast
          intro k hk t ht
          rcases mem_cons.1 hk with rfl | hk
          · cases htarget.symm.trans ht
            exact hcastable
          · have := h k hk t ht
            rwa [getElem?_append_left (hindex k hk)] at this
        dsimp only
        rw [ih htail fun k hk => by have := hindex k hk; simp; omega]
        rfl
      · rfl

theorem hashPartition_error {n : Int} (hn : 2 ≤ n) (hcast : ¬ Castable types keys)
    (hindex : ∀ key ∈ keys, key.index < types.length) :
    hashPartition cudf types rows keys n = .error .castError := by
  simp only [hashPartition, if_neg (Int.not_lt.2 hn), appendCasts_error hcast hindex]
  rfl

end Spec

end Sirius.Partition
