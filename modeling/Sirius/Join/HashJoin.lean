import Sirius.Join.Sql
import Sirius.Lib.Numbered

/-!
# The hash join

`sirius_physical_hash_join` joins the pairs of batches that `get_next_task_input_data` hands out,
each with a join of cudf. The joins of cudf are taken as documented: NULL keys match nothing
(`null_equality::UNEQUAL`), and `distinct_hash_join` returns one match of a row.
-/

namespace Sirius.Join

open Lib List

variable {V : Type} [DecidableEq V] {nl nr : Nat}

/-! ## The operator -/

/-- A key of one side: a column, and the cast in front of it if there is one. -/
structure KeyColumn (V : Type) (n : Nat) where
  column : Fin n
  cast : V → V

def KeyColumn.read {n : Nat} (key : KeyColumn V n) (row : Row V n) : Option V :=
  (row key.column).map key.cast

inductive HashJoinMode where
  | standard
  | buildProbe
  | mixedJoin
  deriving DecidableEq, Repr

structure HashJoin (V : Type) (nl nr : Nat) where
  operatorId : Nat
  joinType : JoinType
  keys : List (KeyColumn V nl × KeyColumn V nr)
  /-- There is one (`are_conditions_supported`). -/
  keys_ne_nil : keys ≠ []
  /-- The other conditions, as the predicate of a mixed join. -/
  predicate : Option (Row V nl → Row V nr → Bool)
  leftProjectionMap : List Nat
  rightProjectionMap : List Nat
  uniqueBuildKeys : Bool
  maxBuildHashTableBytes : Nat

namespace HashJoin

variable (j : HashJoin V nl nr)

/-- Equality of the keys of two rows, with NULL unequal to everything. -/
def keysEqual (l : Row V nl) (r : Row V nr) : Bool :=
  j.keys.all fun key =>
    match key.1.read l, key.2.read r with
    | some a, some b => a == b
    | _, _ => false

def joins (l : Row V nl) (r : Row V nr) : Bool :=
  j.keysEqual l r &&
    match j.predicate with
    | none => true
    | some p => p l r

def lhsOutputColumns : List (Fin nl) := outputColumns nl j.leftProjectionMap

def rhsOutputColumns : List (Fin nr) := outputColumns nr j.rightProjectionMap

/-- `_join_mode` after the constructor and `update_join_exec_mode`. -/
def joinMode (numPartitions buildSideBytes : Nat) (buildFoldable : Bool) : HashJoinMode :=
  if j.predicate.isSome then .mixedJoin
  else if numPartitions = 1 && decide (buildSideBytes < j.maxBuildHashTableBytes) &&
      buildFoldable && !decide (j.joinType ∈ [JoinType.semi, .rightSemi, .anti, .rightAnti, .right,
        .mark]) then .buildProbe
  else .standard

/-! ## The tasks -/

def buildProbeError : String :=
  "In sirius_physical_hash_join:get_next_task_input_data_for_build_probe: expected exactly 1 " ++
    "partition and 1 batch in default (build) port in operator " ++ toString j.operatorId

/-- The tasks in `BUILD_PROBE` mode. There is no task until both ports have a batch. The first task
takes the build batch along; the later ones probe the table made of it. -/
def buildProbeTasks {A B : Type} : List (List A × List B) → Except String (List (A × B))
  | [(_, [])] | [([], _)] => .ok []
  | [(probes, [build])] => .ok (probes.map fun probe => (probe, build))
  | _ => .error j.buildProbeError

def tasks {A B : Type} (mode : HashJoinMode) (parts : List (List A × List B)) :
    Except String (List (A × B)) :=
  match mode with
  | .buildProbe => j.buildProbeTasks parts
  | .standard | .mixedJoin => .ok (pairTasks parts)

/-! ## One task -/

def distinctInnerJoin (left : List (Row V nl)) (right : List (Row V nr)) :
    List (Row V nl × Row V nr) :=
  left.filterMap fun l => (right.find? fun r => j.joins l r).map fun r => (l, r)

/-- `distinct_hash_join::left_join`: the build row of each probe row, in order. -/
def distinctLeftJoin (left : List (Row V nl)) (right : List (Row V nr)) :
    List (Row V nl × Option (Row V nr)) :=
  left.map fun l => (l, right.find? fun r => j.joins l r)

def gatherJoinOutput (l : Option (Row V nl)) (r : Option (Row V nr)) : OutRow V :=
  let collectLeft := j.joinType ≠ .rightSemi ∧ j.joinType ≠ .rightAnti
  let collectRight := j.joinType ≠ .semi ∧ j.joinType ≠ .anti
  ⟨(if collectLeft then select j.lhsOutputColumns l else []) ++
    (if collectRight then select j.rhsOutputColumns r else []), none⟩

/-- The indices of the left rows with a match, as the semi join returns them. -/
def semiIndices (left : List (Row V nl)) (right : List (Row V nr)) : List Nat :=
  (List.range left.length).filter fun i =>
    match left[i]? with
    | none => false
    | some l => right.any fun r => j.joins l r

/-- `resolve_mark_join_result`: all left rows, and a mark column that starts all false and gets a
true scattered to every index. -/
def resolveMarkJoinResult (indices : List Nat) (left : List (Row V nl)) : List (OutRow V) :=
  let marks := indices.foldl (fun column i => column.set i true) (List.replicate left.length false)
  List.zipWith (fun l matched => ⟨select j.lhsOutputColumns (some l), some matched⟩) left marks

def execute (mode : HashJoinMode) (left : List (Row V nl)) (right : List (Row V nr)) :
    Except String (Multiset (OutRow V)) :=
  let distinct := j.uniqueBuildKeys && mode ≠ .mixedJoin
  match mode, j.joinType with
  | _, .inner =>
    let pairs := if distinct then ↑(j.distinctInnerJoin left right)
      else innerJoin j.joins left right
    .ok (pairs.map fun x => j.gatherJoinOutput (some x.1) (some x.2))
  | _, .left =>
    let pairs := if distinct then ↑(j.distinctLeftJoin left right)
      else leftJoin j.joins left right
    .ok (pairs.map fun x => j.gatherJoinOutput (some x.1) x.2)
  | _, .outer =>
    .ok ((fullJoin j.joins left right).map fun x => j.gatherJoinOutput x.1 x.2)
  | .buildProbe, joinType =>
    .error ("Unsupported join type in BUILD_PROBE mode: " ++ joinType.toString)
  | _, .right =>
    -- The sides are swapped, and so is the predicate.
    .ok ((leftJoin (fun r l => j.joins l r) right left).map fun x =>
      j.gatherJoinOutput x.2 (some x.1))
  | _, .semi =>
    .ok ((semiJoin j.joins left right).map fun l => j.gatherJoinOutput (some l) none)
  | _, .rightSemi =>
    .ok ((semiJoin (fun r l => j.joins l r) right left).map fun r =>
      j.gatherJoinOutput none (some r))
  | _, .anti =>
    .ok ((antiJoin j.joins left right).map fun l => j.gatherJoinOutput (some l) none)
  | _, .rightAnti =>
    .ok ((antiJoin (fun r l => j.joins l r) right left).map fun r =>
      j.gatherJoinOutput none (some r))
  | _, .mark => .ok ↑(j.resolveMarkJoinResult (j.semiIndices left right) left)
  | .mixedJoin, joinType => .error ("Unsupported join type for mixed join: " ++ joinType.toString)
  | .standard, joinType => .error ("Unsupported join type: " ++ joinType.toString)

def run (mode : HashJoinMode) (parts : List (List (List (Row V nl)) × List (List (Row V nr)))) :
    Except String (Multiset (OutRow V)) := do
  runTasks (j.execute mode) (← j.tasks mode parts)

/-! ## One task computes the join of its two batches -/

theorem toList_find? {α : Type} {p : α → Bool} {xs : List α} (h : xs.countP p ≤ 1) :
    (xs.find? p).toList = xs.filter p := by
  rw [countP_eq_length_filter] at h
  rw [← head?_filter]
  match xs.filter p, h with
  | [], _ | [_], _ => rfl

section Unique

variable {j} {left : List (Row V nl)} {right : List (Row V nr)}
  (hunique : ∀ l, right.countP (j.joins l) ≤ 1)

include hunique

theorem filter_eq_find? (l : Row V nl) :
    (right : Multiset (Row V nr)).filter (fun r => j.joins l r = true) =
      ((right.find? fun r => j.joins l r).toList : Multiset (Row V nr)) := by
  rw [toList_find? (hunique l), Multiset.filter_coe]
  simp

theorem distinctInnerJoin_eq :
    (j.distinctInnerJoin left right : Multiset _) = innerJoin j.joins left right := by
  induction left with
  | nil => simp [distinctInnerJoin]
  | cons l left ih =>
    rw [← Multiset.cons_coe, innerJoin_cons, filter_eq_find? hunique, ← ih, distinctInnerJoin,
      distinctInnerJoin, filterMap_cons]
    cases right.find? fun r => j.joins l r with
    | none => simp
    | some r => simp [← Multiset.cons_coe]

theorem distinctLeftJoin_eq :
    (j.distinctLeftJoin left right : Multiset _) = leftJoin j.joins left right := by
  induction left with
  | nil => simp [distinctLeftJoin]
  | cons l left ih =>
    have hone : leftJoin j.joins {l} (right : Multiset (Row V nr)) =
        {(l, right.find? fun r => j.joins l r)} := by
      rw [leftJoin, ← Multiset.cons_zero, innerJoin_cons, filter_eq_find? hunique, antiJoin,
        Multiset.filter_cons, Multiset.filter_zero]
      cases hfind : right.find? fun r => j.joins l r with
      | none =>
        have hno : hasMatch j.joins (right : Multiset (Row V nr)) l = false := by
          rw [← Bool.not_eq_true, hasMatch_iff]
          rintro ⟨r, hr, hjoins⟩
          exact find?_eq_none.mp hfind r hr hjoins
        simp [hno]
      | some r =>
        have hyes : hasMatch j.joins (right : Multiset (Row V nr)) l = true :=
          hasMatch_iff.mpr ⟨r, mem_of_find?_eq_some hfind, find?_some hfind⟩
        simp [hyes]
    rw [← Multiset.cons_coe, ← Multiset.singleton_add, leftJoin_add_left, hone, ← ih]
    rfl

end Unique

theorem any_eq_hasMatch (l : Row V nl) (right : List (Row V nr)) :
    (right.any fun r => j.joins l r) = hasMatch j.joins (right : Multiset (Row V nr)) l := by
  rw [Bool.eq_iff_iff, hasMatch_iff]
  simp

theorem mem_semiIndices {left : List (Row V nl)} {right : List (Row V nr)} {k : Nat}
    (hk : k < left.length) :
    k ∈ j.semiIndices left right ↔
      hasMatch j.joins (right : Multiset (Row V nr)) left[k] = true := by
  rw [semiIndices, mem_filter, mem_range, ← any_eq_hasMatch]
  simp [hk]

theorem resolveMarkJoinResult_eq (left : List (Row V nl)) (right : List (Row V nr)) :
    j.resolveMarkJoinResult (j.semiIndices left right) left =
      left.map fun l => ⟨select j.lhsOutputColumns (some l),
        some (hasMatch j.joins (right : Multiset (Row V nr)) l)⟩ := by
  apply ext_getElem?
  intro k
  rw [resolveMarkJoinResult, getElem?_zipWith, getElem?_map]
  by_cases hk : k < left.length
  · rw [getElem?_foldl_set fun i => i, getElem?_eq_getElem hk]
    by_cases hmatch : hasMatch j.joins (right : Multiset (Row V nr)) left[k] = true
    · simp [(j.mem_semiIndices hk).mpr hmatch, hmatch, hk]
    · have hout : k ∉ j.semiIndices left right := fun h => hmatch ((j.mem_semiIndices hk).mp h)
      simp [hout, hk, Bool.not_eq_true _ ▸ hmatch]
  · simp [getElem?_eq_none (Nat.le_of_not_lt hk)]

def spec (A : Multiset (Row V nl)) (B : Multiset (Row V nr)) : Multiset (OutRow V) :=
  sqlJoin (selected j.lhsOutputColumns j.rhsOutputColumns) j.joins A B j.joinType

def Runs (mode : HashJoinMode) : Prop :=
  j.joinType ≠ .single ∧ j.joinType ≠ .invalid ∧
    (mode = .buildProbe → j.joinType = .inner ∨ j.joinType = .left ∨ j.joinType = .outer)

omit [DecidableEq V] in
theorem gatherJoinOutput_pair {l : Option (Row V nl)} {r : Option (Row V nr)}
    (h : j.joinType ∉ [JoinType.semi, .anti, .rightSemi, .rightAnti]) :
    j.gatherJoinOutput l r = (selected j.lhsOutputColumns j.rhsOutputColumns).pair l r := by
  simp only [mem_cons, not_mem_nil, or_false, not_or] at h
  simp [gatherJoinOutput, selected, h]

/-- **A task outputs the join of its two batches.** -/
theorem execute_eq {mode : HashJoinMode} (hruns : j.Runs mode) {left : List (Row V nl)}
    {right : List (Row V nr)}
    (hunique : j.uniqueBuildKeys = true → ∀ l, right.countP (j.joins l) ≤ 1) :
    j.execute mode left right = .ok (j.spec left right) := by
  obtain ⟨hsingle, hinvalid, hprobe⟩ := hruns
  have hpair : j.joinType ∉ [JoinType.semi, .anti, .rightSemi, .rightAnti] → ∀ l r,
      j.gatherJoinOutput l r = (selected j.lhsOutputColumns j.rhsOutputColumns).pair l r :=
    fun h l r => j.gatherJoinOutput_pair h
  cases hjt : j.joinType with
  | single => exact absurd hjt hsingle
  | invalid => exact absurd hjt hinvalid
  | inner =>
    have hdistinct : (j.uniqueBuildKeys && decide (mode ≠ .mixedJoin)) = true →
        (j.distinctInnerJoin left right : Multiset _) = innerJoin j.joins left right :=
      fun h => distinctInnerJoin_eq (hunique (Bool.and_eq_true_iff.mp h).1)
    simp only [execute, spec, sqlJoin, hjt, hpair (by simp [hjt])]
    split
    next h =>
      rw [hdistinct h]
    · rfl
  | left =>
    have hdistinct : (j.uniqueBuildKeys && decide (mode ≠ .mixedJoin)) = true →
        (j.distinctLeftJoin left right : Multiset _) = leftJoin j.joins left right :=
      fun h => distinctLeftJoin_eq (hunique (Bool.and_eq_true_iff.mp h).1)
    simp only [execute, spec, sqlJoin, hjt, hpair (by simp [hjt])]
    split
    next h =>
      rw [hdistinct h]
    · rfl
  | outer => simp only [execute, spec, sqlJoin, hjt, hpair (by simp [hjt])]
  | right =>
    cases mode with
    | buildProbe => simp [hjt] at hprobe
    | standard | mixedJoin =>
      simp only [execute, spec, hjt, hpair (by simp [hjt]), map_leftJoin_swap]
  | semi | anti | rightSemi | rightAnti =>
    cases mode with
    | buildProbe => simp [hjt] at hprobe
    | standard | mixedJoin =>
      simp [execute, spec, sqlJoin, hjt, gatherJoinOutput, selected]
  | mark =>
    cases mode with
    | buildProbe => simp [hjt] at hprobe
    | standard | mixedJoin =>
      simp only [execute, spec, sqlJoin, hjt, resolveMarkJoinResult_eq, selected, Multiset.map_coe]

/-! ## All tasks -/

omit [DecidableEq V] in
/-- In `BUILD_PROBE` mode the port of the build side holds one batch at most, and the tasks are
the same pairs. -/
theorem tasks_eq {A B : Type} {mode : HashJoinMode} {parts : List (List A × List B)}
    (hprobe : mode = .buildProbe → ∃ probes builds, parts = [(probes, builds)] ∧
      builds.length ≤ 1) : j.tasks mode parts = .ok (grid parts) := by
  cases mode with
  | standard | mixedJoin => rw [tasks, pairTasks_eq_grid]
  | buildProbe =>
    obtain ⟨probes, builds, rfl, hbuilds⟩ := hprobe rfl
    obtain rfl | ⟨build, rfl⟩ := eq_nil_or_singleton hbuilds
    · simp [tasks, buildProbeTasks, grid]
    · cases probes with
      | nil => rfl
      | cons probe probes =>
        simp only [tasks, buildProbeTasks, grid, flatMap_cons, flatMap_nil,
          append_nil, map_cons, map_nil, Except.ok.injEq]
        rw [singleton_append, map_eq_flatMap]

omit [DecidableEq V] in
theorem buildProbe_of_joinMode {numPartitions buildSideBytes : Nat} {buildFoldable : Bool}
    (h : j.joinMode numPartitions buildSideBytes buildFoldable = .buildProbe) :
    numPartitions = 1 ∧
      j.joinType ∉ [JoinType.semi, .rightSemi, .anti, .rightAnti, .right, .mark] := by
  rw [joinMode] at h
  split at h
  · cases h
  · split at h
    next hcond =>
      simp only [Bool.and_eq_true, Bool.not_eq_true', decide_eq_true_eq,
        decide_eq_false_iff_not] at hcond
      exact ⟨hcond.1.1.1, hcond.2⟩
    · cases h

/-! ## Any batching -/

/-- Two tables on their way into the join, in any batches, partitions and groups. -/
structure Input (m : Nat) where
  passThrough : Bool
  partL : Row V nl → Fin (m + 1)
  partR : Row V nr → Fin (m + 1)
  cutL : List (List (Row V nl))
  cutR : List (List (Row V nr))
  concatBatchBytes : Nat
  buildSideBytes : Nat
  buildFoldable : Bool
  wholeL : Bool
  wholeR : Bool
  groupsL : Fin (m + 1) → List (List (Row V nl))
  groupsR : Fin (m + 1) → List (List (Row V nr))
  /-- The concat operators accept the join type. -/
  accepted_left : concatAll false (.hashJoin j.joinType) = .ok wholeL
  accepted_right : concatAll true (.hashJoin j.joinType) = .ok wholeR
  formed_left : Formed wholeL concatBatchBytes passThrough partL cutL groupsL
  /-- The partition operator calls `set_concat_all` on the build side when it selects
  `BUILD_PROBE`. -/
  formed_right : Formed
    (wholeR || decide (j.joinMode (m + 1) buildSideBytes buildFoldable = .buildProbe))
    concatBatchBytes passThrough partR cutR groupsR
  /-- Rows with equal keys go to the same partition. -/
  colocated : ∀ l r, j.keysEqual l r = true →
    partOf passThrough partL l = partOf passThrough partR r
  /-- What the planner promises with `unique_build_keys`. -/
  unique : j.uniqueBuildKeys = true → ∀ l, cutR.flatten.countP (j.keysEqual l) ≤ 1

namespace Input

variable {j} {m : Nat} (x : j.Input m)

def mode : HashJoinMode := j.joinMode (m + 1) x.buildSideBytes x.buildFoldable

def parts : List (List (List (Row V nl)) × List (List (Row V nr))) :=
  (List.finRange (m + 1)).map fun i => (x.groupsL i, x.groupsR i)

def output : Except String (Multiset (OutRow V)) := j.run x.mode x.parts

theorem grouping_left : Grouping x.wholeL x.passThrough x.partL x.cutL x.groupsL :=
  x.formed_left.grouping

theorem grouping_right :
    Grouping (x.wholeR || decide (x.mode = .buildProbe)) x.passThrough x.partR x.cutR x.groupsR :=
  x.formed_right.grouping

theorem holds : Holds (partOf x.passThrough x.partL) (partOf x.passThrough x.partR)
    x.cutL.flatten x.cutR.flatten x.groupsL x.groupsR where
  left i := by
    rw [Multiset.filter_coe, Multiset.coe_eq_coe]
    exact x.grouping_left.rows i
  right i := by
    rw [Multiset.filter_coe, Multiset.coe_eq_coe]
    exact x.grouping_right.rows i
  reached := by
    by_cases hcut : x.cutR = []
    · exact Or.inl fun i => (x.grouping_right.eq_nil_iff i).mpr (Or.inl hcut)
    · refine Or.inr fun i hrows hnil => hrows ?_
      -- Without partitioning every left row is in partition 0.
      obtain hnone | ⟨hpass, hi⟩ := (x.grouping_right.eq_nil_iff i).mp hnil
      · exact absurd hnone hcut
      · apply List.Perm.eq_nil
        apply (x.grouping_left.rows i).trans
        simp [partOf, hpass, Ne.symm hi]

theorem whole (i : Fin (m + 1)) : Whole (x.groupsL i) (x.groupsR i) j.joinType := by
  have hleft : x.wholeL = true → (x.groupsL i).length ≤ 1 := fun h => x.grouping_left.whole h i
  have hright : x.wholeR = true → (x.groupsR i).length ≤ 1 :=
    fun h => x.grouping_right.whole (by simp [h]) i
  have hl := x.accepted_left
  have hr := x.accepted_right
  cases hjt : j.joinType <;> rw [hjt] at hl hr <;> simp only [concatAll] at hl hr <;>
    simp_all [Whole]

theorem runs : j.Runs x.mode := by
  have hr := x.accepted_right
  refine ⟨?_, ?_, ?_⟩
  · intro hjt
    rw [hjt] at hr
    cases hr
  · intro hjt
    rw [hjt] at hr
    cases hr
  · intro hmode
    have hjt := (j.buildProbe_of_joinMode hmode).2
    cases hcase : j.joinType <;> rw [hcase] at hjt hr <;> simp_all [concatAll]

theorem buildProbe_parts (h : x.mode = .buildProbe) :
    ∃ probes builds, x.parts = [(probes, builds)] ∧ builds.length ≤ 1 := by
  obtain rfl : m = 0 := Nat.succ.inj (j.buildProbe_of_joinMode h).1
  exact ⟨x.groupsL 0, x.groupsR 0, rfl, x.grouping_right.whole (by simp [h]) 0⟩

/-- A batch of the build side has one match for each row, like the build side as a whole. -/
theorem unique_group (h : j.uniqueBuildKeys = true) {i : Fin (m + 1)} {right : List (Row V nr)}
    (hright : right ∈ x.groupsR i) (l : Row V nl) : right.countP (j.joins l) ≤ 1 :=
  calc right.countP (j.joins l)
      ≤ right.countP (j.keysEqual l) := by
        apply countP_mono_left
        intro r _ hjoins
        exact (Bool.and_eq_true_iff.mp hjoins).1
    _ ≤ (x.groupsR i).flatten.countP (j.keysEqual l) :=
        (sublist_flatten_of_mem hright).countP_le
    _ ≤ x.cutR.flatten.countP (j.keysEqual l) := by
        rw [(x.grouping_right.rows i).countP_eq]
        exact filter_sublist.countP_le
    _ ≤ 1 := x.unique h l

theorem output_eq : x.output =
    .ok (∑ i, pairSum (fun left right => j.spec left right) (x.groupsL i) (x.groupsR i)) := by
  let e : List (Row V nl) → List (Row V nr) → Multiset (OutRow V) :=
    fun left right => j.spec left right
  have htasks : j.tasks x.mode x.parts = .ok (grid x.parts) := j.tasks_eq x.buildProbe_parts
  have hexec : ∀ task ∈ grid x.parts,
      j.execute x.mode task.1 task.2 = .ok (e task.1 task.2) := by
    intro task htask
    obtain ⟨part, hpart, _, hright⟩ := mem_grid htask
    obtain ⟨i, _, rfl⟩ := mem_map.mp hpart
    exact j.execute_eq x.runs fun h => x.unique_group h hright
  rw [output, run, htasks]
  calc runTasks (j.execute x.mode) (grid x.parts)
      = .ok ((grid x.parts).map fun task => e task.1 task.2).sum := runTasks_ok hexec
    _ = .ok (x.parts.map fun part => pairSum e part.1 part.2).sum := by rw [sum_grid]
    _ = .ok (∑ i, pairSum e (x.groupsL i) (x.groupsR i)) := by
      rw [parts, map_map, Fin.sum_univ_def]
      rfl

theorem sum_eq_spec_iff : ∑ i, pairSum (fun left right => j.spec left right) (x.groupsL i) (x.groupsR i) =
    j.spec x.cutL.flatten x.cutR.flatten ↔ ∀ i, Fits (x.groupsL i) (x.groupsR i) j.joinType := by
  apply sum_pairSum_eq_iff x.holds _ x.whole
  intro l r hjoins
  exact x.colocated l r (Bool.and_eq_true_iff.mp hjoins).1

/-- **Batching and the hash join.** The tasks output the join of the two whole tables exactly when
in every partition the groups fit the join type. Inner and semi joins always do. The other join
types need a group on the other side for each row that they output without a match. A mark join
needs exactly one. -/
theorem hashJoin_output_iff :
    x.output = .ok (j.spec x.cutL.flatten x.cutR.flatten) ↔
      ∀ i, Fits (x.groupsL i) (x.groupsR i) j.joinType := by
  rw [x.output_eq, Except.ok.injEq, x.sum_eq_spec_iff]

end Input

/-! ## A mark join with two build batches -/

/-- `x IN (SELECT …)` over one column. -/
def markJoin : HashJoin Nat 1 1 where
  operatorId := 0
  joinType := .mark
  keys := [(⟨0, id⟩, ⟨0, id⟩)]
  keys_ne_nil := by simp
  predicate := none
  leftProjectionMap := []
  rightProjectionMap := []
  uniqueBuildKeys := false
  maxBuildHashTableBytes := 0

theorem markJoin_accepted (build : Bool) : concatAll build (.hashJoin markJoin.joinType) = .ok false := by
  cases build <;> rfl

/-- The build side comes in two batches that are too large to be put together. -/
def markInput : markJoin.Input 0 where
  passThrough := true
  partL _ := 0
  partR _ := 0
  cutL := [[row 1]]
  cutR := [[row 1], [row 2]]
  concatBatchBytes := 15
  buildSideBytes := 20
  buildFoldable := true
  wholeL := false
  wholeR := false
  groupsL _ := [[row 1]]
  groupsR _ := [[row 1], [row 2]]
  accepted_left := markJoin_accepted false
  accepted_right := markJoin_accepted true
  formed_left := by
    apply formed_of_labels [ConcatLabel.arrive 0 ⟨[row 1], 10⟩, ConcatLabel.sourceFinishes,
      ConcatLabel.request, ConcatLabel.create]
    decide +kernel
  formed_right := by
    apply formed_of_labels [ConcatLabel.arrive 0 ⟨[row 1], 10⟩,
      ConcatLabel.arrive 0 ⟨[row 2], 10⟩, ConcatLabel.sourceFinishes, ConcatLabel.request,
      ConcatLabel.create, ConcatLabel.create]
    decide +kernel
  colocated _ _ _ := rfl
  unique h := by cases h

/-- The one left row is output twice, once with each mark. -/
theorem markInput_outputs_twice :
    markInput.output = .ok {⟨[some 1], some true⟩, ⟨[some 1], some false⟩} ∧
      markJoin.spec [row 1] ([row 1, row 2] : List (Row Nat 1)) = {⟨[some 1], some true⟩} ∧
      ¬ Fits (markInput.groupsL 0) (markInput.groupsR 0) .mark := by
  refine ⟨?_, ?_, ?_⟩
  · decide +kernel
  · decide +kernel
  · rintro (h | h) <;> cases h

end HashJoin

end Sirius.Join
