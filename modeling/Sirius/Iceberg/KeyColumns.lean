import Sirius.Lib.Fallible
import Sirius.Iceberg.Deletes

/-!
# Key columns of an Iceberg scan

Which columns `prepare` selects for a query and the keys of its deletes (`mem_prepare`), and that a
key is found among the selected columns if the column that it denotes is one of them
(`findKey_eq_some`).
-/

namespace Sirius.Iceberg

open Lib List

/-! ## Key columns -/

namespace ScanOp

section Keys

variable (scan : ScanOp) {selected : List Nat} {key : Key} {c j : Nat}

theorem mem_foldl_dataFieldIdToIdx {id : Int} (l : List (Nat × Nat)) (m : List (Int × Nat)) :
    (id, j) ∈ l.foldl (fun m (x : Nat × Nat) =>
        match scan.names[x.1]?.bind scan.fieldId with
        | some id => (id, x.2) :: m
        | none => m) m ↔
      (id, j) ∈ m ∨ ∃ c, (c, j) ∈ l ∧ scan.names[c]?.bind scan.fieldId = some id := by
  induction l generalizing m with
  | nil => simp
  | cons x l ih =>
    rw [foldl_cons, ih]
    cases hx : scan.names[x.1]?.bind scan.fieldId with
    | none =>
      refine or_congr_right ⟨fun ⟨c, hc, hid⟩ => ⟨c, .tail _ hc, hid⟩, fun ⟨c, hc, hid⟩ => ⟨c, ?_, hid⟩⟩
      rcases mem_cons.1 hc with rfl | hc
      · rw [hx] at hid
        cases hid
      · exact hc
    | some id' =>
      rw [mem_cons, or_assoc, or_left_comm]
      refine or_congr_right ?_
      constructor
      · rintro (⟨⟨⟩⟩ | ⟨c, hc, hid⟩)
        · exact ⟨x.1, mem_cons_self .., hx⟩
        · exact ⟨c, .tail _ hc, hid⟩
      · rintro ⟨c, hc, hid⟩
        rcases mem_cons.1 hc with rfl | hc
        · exact .inl (by rw [hx] at hid; cases hid; rfl)
        · exact .inr ⟨c, hc, hid⟩

theorem mem_dataFieldIdToIdx {id : Int} :
    (id, j) ∈ scan.dataFieldIdToIdx selected ↔
      ∃ c, selected[j]? = some c ∧ scan.names[c]?.bind scan.fieldId = some id := by
  refine (mem_foldl_dataFieldIdToIdx scan _ _).trans ?_
  simp [mem_zipIdx_iff_getElem?]

theorem lookup_dataFieldIdToIdx {id : Int} (h : (scan.dataFieldIdToIdx selected).lookup id = some j) :
    ∃ c, selected[j]? = some c ∧ scan.names[c]?.bind scan.fieldId = some id := by
  obtain ⟨l, l', hl, -⟩ := lookup_eq_some_iff.1 h
  exact (mem_dataFieldIdToIdx scan).1 (by rw [hl]; simp)

theorem column_unique_of_fieldId {id : Int} {c c' : Nat} (h : scan.names[c]?.bind scan.fieldId = some id)
    (h' : scan.names[c']?.bind scan.fieldId = some id) : c = c' := by
  obtain ⟨m, hm, hid⟩ := Option.bind_eq_some_iff.1 h
  obtain ⟨n, hn, hid'⟩ := Option.bind_eq_some_iff.1 h'
  have hmn : m = n := scan.fieldId_inj m (List.mem_of_getElem? hm) n (List.mem_of_getElem? hn) id hid hid'
  subst hmn
  exact (List.getElem?_inj (List.getElem?_eq_some_iff.1 hm).1 scan.names_nodup).1 (hm.trans hn.symm)

theorem column_unique_of_name {name : String} {c c' : Nat} (h : scan.names[c]? = some name)
    (h' : scan.names[c']? = some name) : c = c' :=
  (List.getElem?_inj (List.getElem?_eq_some_iff.1 h).1 scan.names_nodup).1 (h.trans h'.symm)

theorem findKey_getElem? (h : scan.findKey selected key = some j) : ∃ c, selected[j]? = some c := by
  rcases Option.or_eq_some_iff.1 h with h | ⟨-, h⟩
  · obtain ⟨id, -, hid⟩ := Option.bind_eq_some_iff.1 h
    obtain ⟨c, hc, -⟩ := scan.lookup_dataFieldIdToIdx hid
    exact ⟨c, hc⟩
  · obtain ⟨hlt, -⟩ := findIdx?_eq_some_iff_getElem.1 h
    exact ⟨_, getElem?_eq_getElem hlt⟩

theorem lookup_fieldId_eq_none
    (h : (key.fieldId.bind fun id => scan.names.findIdx? fun n => scan.fieldId n = some id) = none) :
    (key.fieldId.bind fun id => (scan.dataFieldIdToIdx selected).lookup id) = none := by
  rw [Option.eq_none_iff_forall_ne_some]
  intro j hj
  obtain ⟨id, hkey, hlookup⟩ := Option.bind_eq_some_iff.1 hj
  obtain ⟨c, -, hc⟩ := scan.lookup_dataFieldIdToIdx hlookup
  obtain ⟨n, hn, hid⟩ := Option.bind_eq_some_iff.1 hc
  rw [hkey, Option.bind_some, findIdx?_eq_none_iff] at h
  simpa [hid] using h n (mem_of_getElem? hn)

theorem getElem?_of_idxOf? {name : String} (h : scan.names.idxOf? name = some c) :
    scan.names[c]? = some name := by
  obtain ⟨hlt, hname, -⟩ := findIdx?_eq_some_iff_getElem.1 h
  rw [getElem?_eq_getElem hlt, eq_of_beq hname]

theorem findKey_eq_none (h : scan.keyColumn key = none) : scan.findKey selected key = none := by
  rw [keyColumn, Option.or_eq_none_iff] at h
  obtain ⟨hid, hname⟩ := h
  rw [findKey, scan.lookup_fieldId_eq_none hid, Option.none_or, findIdx?_eq_none_iff]
  intro c hc
  refine decide_eq_false fun hn => ?_
  exact idxOf?_eq_none_iff.1 hname (mem_of_getElem? hn)

theorem findKey_eq_some (h : scan.keyColumn key = some c) (hc : c ∈ selected) :
    ∃ j, scan.findKey selected key = some j ∧ selected[j]? = some c := by
  rw [keyColumn, Option.or_eq_some_iff] at h
  rw [findKey]
  rcases h with h | ⟨hnone, h⟩
  · -- the column has the field identifier of the key, and no other column has it
    obtain ⟨id, hkey, hidx⟩ := Option.bind_eq_some_iff.1 h
    obtain ⟨hlt, hid, -⟩ := findIdx?_eq_some_iff_getElem.1 hidx
    have hfield : scan.names[c]?.bind scan.fieldId = some id := by
      rw [getElem?_eq_getElem hlt, Option.bind_some]
      exact of_decide_eq_true hid
    obtain ⟨j₀, hj₀⟩ := getElem?_of_mem hc
    have hmem : (id, j₀) ∈ scan.dataFieldIdToIdx selected :=
      (mem_dataFieldIdToIdx scan).2 ⟨c, hj₀, hfield⟩
    obtain ⟨j, hj⟩ : ∃ j, (scan.dataFieldIdToIdx selected).lookup id = some j := by
      rw [← Option.ne_none_iff_exists', Ne, lookup_eq_none_iff]
      exact fun hall => by simpa using hall _ hmem
    obtain ⟨c', hc', hfield'⟩ := scan.lookup_dataFieldIdToIdx hj
    refine ⟨j, by rw [hkey, Option.bind_some, hj, Option.some_or], ?_⟩
    rw [hc', scan.column_unique_of_fieldId hfield hfield']
  · -- no column has its field identifier, so that the name decides
    rw [scan.lookup_fieldId_eq_none hnone, Option.none_or]
    have hname : scan.names[c]? = some key.name := scan.getElem?_of_idxOf? h
    obtain ⟨j, hj⟩ : ∃ j, (selected.findIdx? fun c => scan.names[c]? = some key.name) = some j := by
      rw [← Option.ne_none_iff_exists', Ne, findIdx?_eq_none_iff]
      exact fun hall => by simpa [hname] using hall c hc
    obtain ⟨hlt, hname', -⟩ := findIdx?_eq_some_iff_getElem.1 hj
    refine ⟨j, hj, ?_⟩
    rw [getElem?_eq_getElem hlt,
      scan.column_unique_of_name hname (of_decide_eq_true hname')]

end Keys

/-! ## Selected columns -/

section Selected

variable (scan : ScanOp)

theorem forceKey_cases (state : List Nat × Nat) (name : String) :
    (scan.forceKey state name = state ∧ ∀ c, scan.names.idxOf? name = some c → c ∈ state.1) ∨
      ∃ c, scan.names.idxOf? name = some c ∧ c ∉ state.1 ∧
        scan.forceKey state name = (state.1 ++ [c], state.2 + 1) := by
  rw [forceKey]
  cases hname : scan.names.idxOf? name with
  | none => exact .inl ⟨rfl, nofun⟩
  | some c =>
    by_cases hc : c ∈ state.1
    · exact .inl ⟨if_pos hc, fun c' hc' => by cases hc'; exact hc⟩
    · exact .inr ⟨c, rfl, hc, if_neg hc⟩

/-- The loops append new columns that are named like a key, until there is one for every key. -/
theorem foldl_forceKey (names : List String) (state : List Nat × Nat) :
    ∃ forced : List Nat, names.foldl scan.forceKey state = (state.1 ++ forced, state.2 + forced.length) ∧
      (∀ c ∈ forced, c ∉ state.1 ∧ ∃ n ∈ names, scan.names.idxOf? n = some c) ∧
      ∀ n ∈ names, ∀ c, scan.names.idxOf? n = some c → c ∈ state.1 ++ forced := by
  induction names generalizing state with
  | nil => exact ⟨[], by simp⟩
  | cons n names ih =>
    rw [foldl_cons]
    rcases scan.forceKey_cases state n with ⟨heq, hmem⟩ | ⟨c₀, hc₀, hnew, heq⟩
    · obtain ⟨forced, hfold, hnew, hall⟩ := ih state
      rw [heq]
      refine ⟨forced, hfold, fun c hc => ?_, fun m hm c hc => ?_⟩
      · obtain ⟨hc', m, hm, hmc⟩ := hnew c hc
        exact ⟨hc', m, .tail _ hm, hmc⟩
      · rcases mem_cons.1 hm with rfl | hm
        · exact mem_append_left _ (hmem c hc)
        · exact hall m hm c hc
    · obtain ⟨forced, hfold, hnew', hall⟩ := ih (state.1 ++ [c₀], state.2 + 1)
      rw [heq, hfold]
      simp only [append_assoc, singleton_append] at hall
      refine ⟨c₀ :: forced, by simp [Nat.add_right_comm, Nat.add_assoc], fun c hc => ?_,
        fun m hm c hc => ?_⟩
      · rcases mem_cons.1 hc with rfl | hc
        · exact ⟨hnew, n, mem_cons_self .., hc₀⟩
        · obtain ⟨hc', m, hm, hmc⟩ := hnew' c hc
          exact ⟨fun h => hc' (mem_append_left _ h), m, .tail _ hm, hmc⟩
      · rcases mem_cons.1 hm with rfl | hm
        · rw [hc₀] at hc
          cases hc
          simp
        · exact hall m hm c hc

def forced (keys : List (List Key)) : List Nat :=
  (scan.prepare keys).1.drop scan.makeSelectedColumnIndices.length

def NamedLikeKey (keys : List (List Key)) (c : Nat) : Prop :=
  ∃ ks ∈ keys, ∃ k ∈ ks, scan.names.idxOf? k.name = some c

theorem prepare_spec (keys : List (List Key)) :
    scan.prepare keys =
        (scan.makeSelectedColumnIndices ++ scan.forced keys, (scan.forced keys).length) ∧
      (∀ c ∈ scan.forced keys, c ∉ scan.makeSelectedColumnIndices ∧ scan.NamedLikeKey keys c) ∧
      ∀ c, scan.NamedLikeKey keys c → c ∈ scan.makeSelectedColumnIndices ++ scan.forced keys := by
  obtain ⟨forced, hfold, hnew, hall⟩ := scan.foldl_forceKey (keys.flatten.map Key.name)
    (scan.makeSelectedColumnIndices, 0)
  have hprepare : scan.prepare keys = (scan.makeSelectedColumnIndices ++ forced, forced.length) := by
    rw [prepare, hfold, Nat.zero_add]
  have hforced : scan.forced keys = forced := by rw [ScanOp.forced, hprepare, drop_left]
  rw [hforced]
  refine ⟨hprepare, fun c hc => ?_, ?_⟩
  · obtain ⟨hc', n, hn, hnc⟩ := hnew c hc
    obtain ⟨k, hk, rfl⟩ := mem_map.1 hn
    obtain ⟨ks, hks, hk⟩ := mem_flatten.1 hk
    exact ⟨hc', ks, hks, k, hk, hnc⟩
  · rintro c ⟨ks, hks, k, hk, hc⟩
    exact hall _ (mem_map.2 ⟨k, mem_flatten.2 ⟨ks, hks, hk⟩, rfl⟩) c hc

theorem prepare_eq (keys : List (List Key)) :
    scan.prepare keys =
      (scan.makeSelectedColumnIndices ++ scan.forced keys, (scan.forced keys).length) :=
  (scan.prepare_spec keys).1

/-- What is read: the columns of the query, and those named like a key. -/
theorem mem_prepare {keys : List (List Key)} {c : Nat} :
    c ∈ (scan.prepare keys).1 ↔ c ∈ scan.makeSelectedColumnIndices ∨ scan.NamedLikeKey keys c := by
  obtain ⟨hprepare, hnew, hall⟩ := scan.prepare_spec keys
  rw [hprepare, mem_append]
  constructor
  · exact Or.imp_right fun hc => (hnew c hc).2
  · rintro (hc | hc)
    · exact .inl hc
    · exact mem_append.1 (hall c hc)

theorem forced_eq_nil_iff {keys : List (List Key)} :
    scan.forced keys = [] ↔ ∀ c, scan.NamedLikeKey keys c → c ∈ scan.makeSelectedColumnIndices := by
  obtain ⟨-, hnew, hall⟩ := scan.prepare_spec keys
  constructor
  · intro hnil c hc
    simpa [hnil] using hall c hc
  · intro h
    rw [eq_nil_iff_forall_not_mem]
    exact fun c hc => (hnew c hc).1 (h c (hnew c hc).2)

end Selected

end ScanOp

end Sirius.Iceberg
