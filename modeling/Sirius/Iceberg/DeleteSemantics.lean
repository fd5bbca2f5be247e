import Sirius.Iceberg.Filters
import Sirius.Iceberg.KeyColumns

/-!
# The delete pipeline deletes the right rows

The hook is computed for one batch at a time. `scanBatches_eq` says what it does to the file as a
whole: which rows remain and which columns they have. From there on the pipeline is compared with the
meaning of the deletes. They agree for every data file exactly if two things hold of the query and of
the keys of the groups (`KeysFound`, `Stripped`).
-/

namespace Sirius.Iceberg

open Lib List

variable {V : Type}

namespace ScanOp

/-! ## The scan of a file -/

section Scan

variable (scan : ScanOp) (dd : IcebergDeleteData V)

theorem selected_eq :
    scan.selected dd =
      scan.makeSelectedColumnIndices ++ scan.forced (dd.equalityDeleteGroups.map (·.keys)) := by
  rw [selected, prepare_eq]

def equalityFilters : List IcebergDeleteData.Filter :=
  dd.equalityDeleteGroups.zipIdx.filterMap fun (g, gi) =>
    (g.keys.mapM (scan.findKey (scan.selected dd))).map (.equality gi)

theorem filters_eq :
    scan.filters dd =
      (if dd.positionalDeletes.isEmpty then [] else [.positional]) ++ scan.equalityFilters dd := rfl

theorem fits_of_mem_equalityFilters {f : IcebergDeleteData.Filter} (hf : f ∈ scan.equalityFilters dd) :
    f.Fits (scan.selected dd).length := by
  obtain ⟨⟨g, gi⟩, -, hg⟩ := List.mem_filterMap.1 hf
  obtain ⟨js, hjs, rfl⟩ := Option.map_eq_some_iff.1 hg
  intro j hj
  obtain ⟨k, -, hk⟩ := exists_of_mem_mapM hjs hj
  obtain ⟨c, hc⟩ := scan.findKey_getElem? hk
  exact (List.getElem?_eq_some_iff.1 hc).1

def outputColumns : List Nat :=
  if scan.filters dd = [] ∨ scan.makeSelectedColumnIndices = [] then scan.selected dd
  else scan.makeSelectedColumnIndices

theorem stripExtra_rows {t : Table V} {rows : List (Row V)} {query extra : List Nat}
    (hcols : t.numColumns = (query ++ extra).length)
    (hrows : t.rows = rows.map fun r => (query ++ extra).map r) :
    (t.stripExtra extra.length).rows =
      rows.map fun r => (if query = [] then query ++ extra else query).map r := by
  rw [length_append] at hcols
  rw [Table.stripExtra]
  by_cases hquery : query = []
  · subst hquery
    have hkeep : ¬0 < (t.numColumns : Int) - extra.length := by
      rw [hcols, length_nil]
      omega
    dsimp only
    rw [if_neg fun h : _ ∧ _ => hkeep h.1, ite_self, hrows, if_pos rfl]
  · have hpos : 0 < query.length := length_pos_iff.2 hquery
    rw [if_neg hquery]
    split
    · have hkeep : (t.numColumns : Int) - extra.length = query.length := by
        rw [hcols]
        omega
      simp only [hkeep]
      rw [if_pos ⟨by omega, by omega⟩, Table.resize_rows, hrows, map_map, Int.toNat_natCast]
      refine map_congr_left fun r _ => ?_
      rw [Function.comp_apply, map_append, take_left' (length_map r)]
    next hextra =>
      rw [hrows, length_eq_zero_iff.1 (by omega : extra.length = 0), append_nil]

variable [DecidableEq V] (path : String)

theorem foldl_filters_rows (first : Nat) {t : Table V}
    (ht : t.numColumns = (scan.selected dd).length) :
    ((scan.filters dd).foldl (fun t f => dd.apply t path first f) t).rows =
      (filterIdx (fun i _ => decide ((i : Int) ∉ dd.positions path)) first t.rows).filter fun r =>
        (scan.equalityFilters dd).all (dd.passes path r) := by
  have hfits {t' : Table V} (ht' : t'.numColumns = t.numColumns) :
      ∀ f ∈ scan.equalityFilters dd, f.Fits t'.numColumns := by
    intro f hf
    rw [ht', ht]
    exact scan.fits_of_mem_equalityFilters dd hf
  rw [filters_eq, foldl_append]
  split
  next hempty =>
    have hpositions : dd.positions path = [] := by
      rw [IcebergDeleteData.positions, isEmpty_iff.1 hempty]
      rfl
    rw [foldl_nil, dd.foldl_apply_rows path first (hfits rfl), hpositions,
      filterIdx_eq_self fun _ _ _ _ => by simp]
  · rw [foldl_cons, foldl_nil, dd.foldl_apply_rows path first (hfits (by simp)),
      IcebergDeleteData.apply, dd.positionalApply_rows]

def passesAll (path : String) (r : Row V) : Bool :=
  (scan.equalityFilters dd).all (dd.passes path ((scan.selected dd).map r))

/-- **One batch.** The rows that remain, and their columns. -/
theorem scanBatch_rows (first : Nat) (rows : List (Row V)) :
    (scan.scanBatch dd path first rows).rows =
      (filterIdx (fun i r => decide ((i : Int) ∉ dd.positions path) && scan.passesAll dd path r)
        first rows).map fun r => (scan.outputColumns dd).map r := by
  have hrows : ((scan.filters dd).foldl (fun t f => dd.apply t path first f)
        (.read (scan.selected dd) rows)).rows =
      (filterIdx (fun i r => decide ((i : Int) ∉ dd.positions path) && scan.passesAll dd path r)
        first rows).map fun r => (scan.selected dd).map r := by
    rw [scan.foldl_filters_rows dd path first rfl, filter_filterIdx, Table.read, filterIdx_map]
    rfl
  have hcols := dd.foldl_apply_numColumns path first (scan.filters dd)
    (.read (scan.selected dd) rows)
  rw [scanBatch, buildDeletePipeline, outputColumns]
  by_cases hfilters : scan.filters dd = []
  · rw [hfilters, List.foldl_nil] at hrows
    simp only [hfilters, true_or, if_true, List.isEmpty_nil, ite_self, hrows]
  · have hdd : dd.isEmpty = false := by
      rw [Bool.eq_false_iff]
      intro hempty
      rw [IcebergDeleteData.isEmpty, Bool.and_eq_true, List.isEmpty_iff, List.isEmpty_iff] at hempty
      exact hfilters (by simp [filters, hempty])
    have hne : (scan.filters dd).isEmpty = false := by simpa using hfilters
    simp only [hdd, hne, Bool.false_eq_true, if_false, hfilters, false_or]
    rw [selected_eq] at hrows hcols ⊢
    rw [prepare_eq, IcebergDeleteData.buildHook, stripExtra_rows hcols hrows]

/-- **All batches.** The cut does not matter. -/
theorem scanBatches_eq (first : Nat) (batches : List (List (Row V))) :
    scan.scanBatches dd path first batches =
      (filterIdx (fun i r => decide ((i : Int) ∉ dd.positions path) && scan.passesAll dd path r)
        first batches.flatten).map fun r => (scan.outputColumns dd).map r := by
  induction batches generalizing first with
  | nil => rfl
  | cons b bs ih =>
    rw [scanBatches, ih, scanBatch_rows, flatten_cons, filterIdx_append, map_append]

/-- A group deletes a row of the file, as the pipeline sees it. -/
def Drops (g : EqualityDeleteGroup V) (r : Row V) : Prop :=
  ∃ js, g.keys.mapM (scan.findKey (scan.selected dd)) = some js ∧
    (js.map fun j => ((scan.selected dd).map r).getD j none) ∈ g.deleteTable

variable {r : Row V}

theorem passesAll_iff {path : String} :
    scan.passesAll dd path r = true ↔
      ∀ g ∈ dd.equalityDeleteGroups, dd.Applies g path → ¬scan.Drops dd g r := by
  simp only [passesAll, all_eq_true, equalityFilters, mem_filterMap, Drops, not_exists, not_and]
  constructor
  · intro h g hg happlies js hjs
    obtain ⟨gi, hgi⟩ := getElem?_of_mem hg
    have hpass := h (.equality gi js) ⟨(g, gi), mem_zipIdx_iff_getElem?.2 hgi, by simp [hjs]⟩
    exact (dd.passes_equality_iff hgi).1 hpass happlies
  · rintro h f ⟨⟨g, gi⟩, hg, hf⟩
    obtain ⟨js, hjs, rfl⟩ := Option.map_eq_some_iff.1 hf
    have hgi : dd.equalityDeleteGroups[gi]? = some g := mem_zipIdx_iff_getElem?.1 hg
    rw [dd.passes_equality_iff hgi]
    exact fun happlies => h g (mem_of_getElem? hgi) happlies js hjs

end Scan

/-! ## When the pipeline is exact -/

section Exact

variable (scan : ScanOp) (keys : List (List Key))

/-- Every key column is read: the query projects it, or a key of some group has its name. -/
def KeysFound : Prop :=
  ∀ ks ∈ keys, ∀ cols, scan.keyColumns ks = some cols →
    ∀ c ∈ cols, c ∈ scan.makeSelectedColumnIndices ∨ scan.NamedLikeKey keys c

/-- The appended columns are cut off: there are none, or the query has a column of its own and at least
one group has all its keys. -/
def Stripped : Prop :=
  (∀ c, scan.NamedLikeKey keys c → c ∈ scan.makeSelectedColumnIndices) ∨
    (scan.makeSelectedColumnIndices ≠ [] ∧ ∃ ks ∈ keys, (scan.keyColumns ks).isSome)

variable {scan keys} {dd : IcebergDeleteData V} {ks : List Key}

/-- The columns that the pipeline compares are those that the keys denote. -/
theorem mapM_findKey_of_found {selected cols : List Nat} (hcols : scan.keyColumns ks = some cols)
    (hmem : ∀ c ∈ cols, c ∈ selected) :
    ∃ js, ks.mapM (scan.findKey selected) = some js ∧
      ∀ r : Row V, (js.map fun j => (selected.map r).getD j none) = cols.map r := by
  rw [keyColumns, mapM_eq_some_iff] at hcols
  induction hcols with
  | nil => exact ⟨[], rfl, fun _ => rfl⟩
  | cons hkc _ ih =>
    obtain ⟨js, hjs, hr⟩ := ih fun c hc => hmem c (.tail _ hc)
    obtain ⟨j, hj, hc⟩ := scan.findKey_eq_some hkc (hmem _ (mem_cons_self ..))
    refine ⟨j :: js, ?_, fun r => ?_⟩
    · rw [mapM_eq_some_iff] at hjs ⊢
      exact .cons hj hjs
    · rw [map_cons, map_cons, hr, getD_eq_getElem?_getD, getElem?_map, hc]
      rfl

theorem mapM_findKey_of_none {selected : List Nat} (hcols : scan.keyColumns ks = none) :
    ks.mapM (scan.findKey selected) = none := by
  induction ks with
  | nil => cases hcols
  | cons k ks ih =>
    rw [keyColumns, mapM_cons] at hcols
    rw [mapM_cons]
    cases hk : scan.keyColumn k with
    | none => rw [scan.findKey_eq_none hk]; rfl
    | some c =>
      cases hks : ks.mapM scan.keyColumn with
      | none =>
        rw [ih hks]
        cases scan.findKey selected k <;> rfl
      | some cols =>
        rw [hk, hks] at hcols
        cases hcols

theorem mem_selected_of_found (hfound : scan.KeysFound keys)
    (hkeys : dd.equalityDeleteGroups.map (·.keys) = keys) (hks : ks ∈ keys) {cols : List Nat}
    (hcols : scan.keyColumns ks = some cols) : ∀ c ∈ cols, c ∈ scan.selected dd := by
  intro c hc
  rw [selected, mem_prepare, hkeys]
  exact hfound ks hks cols hcols c hc

variable {r : Row V}

theorem drops_iff_matches (hfound : scan.KeysFound keys)
    (hkeys : dd.equalityDeleteGroups.map (·.keys) = keys) {g : EqualityDeleteGroup V}
    (hg : g ∈ dd.equalityDeleteGroups) : scan.Drops dd g r ↔ scan.Matches g r := by
  have hks : g.keys ∈ keys := hkeys ▸ mem_map.2 ⟨g, hg, rfl⟩
  rw [Drops, Matches]
  cases hcols : scan.keyColumns g.keys with
  | none => simp [mapM_findKey_of_none hcols]
  | some cols =>
    obtain ⟨js, hjs, hr⟩ :=
      mapM_findKey_of_found (V := V) hcols (mem_selected_of_found hfound hkeys hks hcols)
    simp only [hjs, Option.some.injEq, exists_eq_left', hr]

theorem equalityFilters_eq_nil_iff :
    scan.equalityFilters dd = [] ↔
      ∀ g ∈ dd.equalityDeleteGroups, g.keys.mapM (scan.findKey (scan.selected dd)) = none := by
  rw [equalityFilters, filterMap_eq_nil_iff]
  simp only [Prod.forall, Option.map_eq_none_iff, mem_zipIdx_iff_getElem?]
  constructor
  · intro h g hg
    obtain ⟨gi, hgi⟩ := getElem?_of_mem hg
    exact h g gi hgi
  · exact fun h g gi hgi => h g (mem_of_getElem? hgi)

theorem outputColumns_eq (hfound : scan.KeysFound keys) (hstripped : scan.Stripped keys)
    (hkeys : dd.equalityDeleteGroups.map (·.keys) = keys) :
    scan.outputColumns dd = scan.makeSelectedColumnIndices := by
  rw [outputColumns]
  rcases hstripped with hnone | ⟨hquery, ks, hks, hsome⟩
  · rw [selected_eq, hkeys, scan.forced_eq_nil_iff.2 hnone, append_nil, ite_self]
  · obtain ⟨cols, hcols⟩ := Option.isSome_iff_exists.1 hsome
    obtain ⟨js, hjs, -⟩ :=
      mapM_findKey_of_found (V := V) hcols (mem_selected_of_found hfound hkeys hks hcols)
    obtain ⟨g, hg, rfl⟩ := mem_map.1 (hkeys ▸ hks)
    rw [if_neg]
    rintro (hfilters | hquery')
    · have hnone := equalityFilters_eq_nil_iff.1 (append_eq_nil_iff.1 hfilters).2 g hg
      rw [hjs] at hnone
      cases hnone
    · exact hquery hquery'

variable [DecidableEq V]

theorem deletesExactly (hfound : scan.KeysFound keys) (hstripped : scan.Stripped keys) :
    scan.DeletesExactly V keys := by
  intro dd hkeys path batches
  rw [scanBatches_eq, liveRows, outputColumns_eq hfound hstripped hkeys]
  refine congrArg _ (filterIdx_congr fun i r _ _ => ?_)
  rw [Bool.eq_iff_iff]
  simp only [Bool.and_eq_true, decide_eq_true_eq, passesAll_iff]
  exact and_congr_right' (forall₂_congr fun g hg =>
    imp_congr_right fun _ => not_congr (drops_iff_matches hfound hkeys hg))

def groupOf (table : List Key → List (List (Option V))) (ks : List Key) : EqualityDeleteGroup V where
  keyNames := ks.map Key.name
  keyFieldIds := ks.map Key.fieldId
  deleteTable := table ks

variable (table : List Key → List (List (Option V)))

omit [DecidableEq V] in
theorem keys_groupOf (ks : List Key) : (groupOf table ks).keys = ks := by
  refine ext_getElem? fun k => ?_
  rw [EqualityDeleteGroup.keys, groupOf, getElem?_map, getElem?_zipIdx, getElem?_map]
  cases hk : ks[k]? with
  | none => rfl
  | some key => simp [hk]

def deleteData (keys : List (List Key)) (table : List Key → List (List (Option V))) :
    IcebergDeleteData V where
  equalityDeleteGroups := keys.map (groupOf table)
  sorted _ h := (List.not_mem_nil h).elim

omit [DecidableEq V] in
theorem keys_deleteData : (deleteData keys table).equalityDeleteGroups.map (·.keys) = keys := by
  rw [deleteData, map_map]
  exact (map_congr_left fun ks _ => keys_groupOf table ks).trans (map_id keys)

theorem scanBatches_singleton {table : List Key → List (List (Option V))}
    (h : ∀ ks ∈ keys, ¬scan.Drops (deleteData keys table) (groupOf table ks) r) :
    scan.scanBatches (deleteData keys table) "" 0 [[r]] =
      [(scan.outputColumns (deleteData keys table)).map r] := by
  have hpass : scan.passesAll (deleteData keys table) "" r = true := by
    rw [passesAll_iff]
    intro g hg _
    obtain ⟨ks, hks, rfl⟩ := mem_map.1 hg
    exact h ks hks
  rw [scanBatches_eq, flatten_singleton, filterIdx_cons, hpass]
  rfl

/-- A column that no one reads, with a row that differs from an empty one only there. -/
theorem keysFound_of_deletesExactly [Inhabited V] (h : scan.DeletesExactly V keys) :
    scan.KeysFound keys := by
  intro ks hks cols hcols c hc
  by_contra hread
  let r : Row V := fun c' => if c' = c then some default else none
  let table : List Key → List (List (Option V)) := fun ks' => if ks' = ks then [cols.map r] else []
  have hmem : c ∉ scan.selected (deleteData keys table) := by
    rwa [selected, mem_prepare, keys_deleteData]
  -- the group deletes the row, but the pipeline only sees NULLs
  have hnull : ∀ j, ((scan.selected (deleteData keys table)).map r).getD j none = none := by
    intro j
    rw [getD_eq_getElem?_getD, getElem?_map]
    cases hj : (scan.selected (deleteData keys table))[j]? with
    | none => rfl
    | some c' => exact if_neg fun hcc' : c' = c => hmem (hcc' ▸ mem_of_getElem? hj)
  have hkept : ∀ ks' ∈ keys, ¬scan.Drops (deleteData keys table) (groupOf table ks') r := by
    rintro ks' - ⟨js, -, hdel⟩
    simp only [hnull, groupOf, table] at hdel
    split at hdel
    · rw [mem_singleton] at hdel
      have hr : r c ∈ js.map fun _ => none := by
        rw [hdel]
        exact mem_map.2 ⟨c, hc, rfl⟩
      simp [r] at hr
    · cases hdel
  have hdead : scan.liveRows (deleteData keys table) "" [r] = [] := by
    have hlive : ¬scan.Live (deleteData keys table) "" 0 r := by
      rintro ⟨-, hall⟩
      refine hall (groupOf table ks) (mem_map.2 ⟨ks, hks, rfl⟩) nofun ⟨cols, ?_, ?_⟩
      · rwa [keys_groupOf]
      · simp [groupOf, table]
    simp [liveRows, filterIdx_cons, hlive]
  have := h _ (keys_deleteData table) "" [[r]]
  rw [scanBatches_singleton hkept, flatten_singleton, hdead] at this
  cases this

/-- With groups that delete nothing, all that can go wrong are the columns. -/
theorem stripped_of_deletesExactly (h : scan.DeletesExactly V keys) : scan.Stripped keys := by
  by_contra hstripped
  simp only [Stripped, not_or, not_and_or, not_not] at hstripped
  obtain ⟨hforced, hcols⟩ := hstripped
  let dd : IcebergDeleteData V := deleteData keys fun _ => []
  let r : Row V := fun _ => none
  have hout : scan.outputColumns dd = scan.selected dd := by
    refine if_pos (hcols.symm.imp (fun hnone => ?_) id)
    refine equalityFilters_eq_nil_iff.2 fun g hg => ?_
    obtain ⟨ks, hks, rfl⟩ := mem_map.1 hg
    rw [keys_groupOf]
    refine mapM_findKey_of_none (Option.eq_none_iff_forall_ne_some.2 fun cols hcols => ?_)
    exact hnone ⟨ks, hks, by rw [hcols]; rfl⟩
  have hkept : ∀ ks ∈ keys, ¬scan.Drops dd (groupOf (fun _ => []) ks) r := by
    rintro ks - ⟨js, -, hdel⟩
    cases hdel
  have hlive : scan.liveRows dd "" [r] = [scan.makeSelectedColumnIndices.map r] := by
    have hlive : scan.Live dd "" 0 r := by
      refine ⟨by simp [IcebergDeleteData.positions, dd, deleteData], fun g hg _ => ?_⟩
      obtain ⟨ks, hks, rfl⟩ := mem_map.1 hg
      rintro ⟨cols, -, hdel⟩
      cases hdel
    simp [liveRows, filterIdx_cons, hlive]
  have hlen := h _ (keys_deleteData fun _ => []) "" [[r]]
  rw [scanBatches_singleton hkept, flatten_singleton, hlive, hout, selected_eq, keys_deleteData] at hlen
  have := congrArg length (cons.inj hlen).1
  rw [length_map, length_map, length_append, Nat.add_eq_left,
    length_eq_zero_iff, forced_eq_nil_iff] at this
  exact hforced this

/-- A table of transactions with a column that was renamed from `user_id`, and a query on the
other one. -/
def transactions : ScanOp where
  names := ["uid", "tx"]
  fieldId := fun name => if name = "uid" then some 1 else if name = "tx" then some 2 else none
  columnIds := [some 1]
  projectionIds := [0]
  names_nodup := by decide
  fieldId_inj := by
    simp only [List.mem_cons, List.not_mem_nil, or_false]
    rintro m (rfl | rfl) n (rfl | rfl) id hm hn <;> simp at hm hn ⊢ <;> omega
  columnIds_lt := by simp

/-- The same table, for `count(*)`. -/
def countTransactions : ScanOp := { transactions with columnIds := [none], columnIds_lt := by simp }

def deletedUser (name : String) : IcebergDeleteData Nat where
  equalityDeleteGroups := [{ keyNames := [name], keyFieldIds := [some 1], deleteTable := [[some 7]] }]
  sorted _ h := (List.not_mem_nil h).elim

end Exact

end ScanOp

end Sirius.Iceberg
