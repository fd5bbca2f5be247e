import Sirius.Expression.Comparison
import Sirius.Join.HashJoin

/-!
# NULL keys of the hash join

The constructor of the hash join takes `=` and `IS NOT DISTINCT FROM` for the same kind of condition,
and every join of cuDF is called with `null_equality::UNEQUAL`. So two rows are matched as SQL asks
unless an `IS NOT DISTINCT FROM` has to match two NULLs, and the marks of a mark join are never NULL.

Whether a mark should be NULL depends on the whole build side, and a task sees one group of one partition
of it. So `hashJoin_nulls` is about the tasks of all partitions together.
-/

namespace Sirius.Join

open Lib List
open Sirius.Expression (ComparisonType)

variable {V : Type} [LinearOrder V] {nl nr : Nat}

/-! ## The constructor -/

inductive JoinExpression (V : Type) (n : Nat) where
  | boundRef (column : Fin n)
  | boundCast (column : Fin n) (cast : V → V)
  /-- A cast of something else than a column. -/
  | otherCast (eval : Row V n → Option V)
  | other (eval : Row V n → Option V)

def JoinExpression.eval {n : Nat} : JoinExpression V n → Row V n → Option V
  | .boundRef column, row => row column
  | .boundCast column cast, row => (row column).map cast
  | .otherCast eval, row | .other eval, row => eval row

def JoinExpression.key {n : Nat} (side : String) : JoinExpression V n → Except String (KeyColumn V n)
  | .boundRef column => .ok ⟨column, id⟩
  | .boundCast column cast => .ok ⟨column, cast⟩
  | .otherCast _ =>
    .error ("Unsupported join condition: BOUND_CAST child is not BOUND_REF (" ++ side ++ ")")
  | .other _ => .error ("Unsupported join condition " ++ side ++ " expression")

structure HashCondition (V : Type) (nl nr : Nat) where
  comparison : ComparisonType
  left : JoinExpression V nl
  right : JoinExpression V nr

def isEquality (c : ComparisonType) : Bool := c == .equal || c == .notDistinctFrom

namespace HashCondition

def isEquality (c : HashCondition V nl nr) : Bool := Join.isEquality c.comparison

def keys (c : HashCondition V nl nr) : Except String (KeyColumn V nl × KeyColumn V nr) := do
  return (← c.left.key "left", ← c.right.key "right")

end HashCondition

def isOrdered : Bool → List (HashCondition V nl nr) → Bool
  | _, [] => true
  | seenNonEqual, c :: conditions =>
    if c.isEquality then !seenNonEqual && isOrdered seenNonEqual conditions
    else isOrdered true conditions

def reorderJoinConditions (conditions : List (HashCondition V nl nr)) :
    List (HashCondition V nl nr) :=
  if isOrdered false conditions then conditions
  else conditions.filter (·.isEquality) ++ conditions.filter fun c => !c.isEquality

structure HashJoinParameters where
  operatorId : Nat
  joinType : JoinType
  leftProjectionMap : List Nat
  rightProjectionMap : List Nat
  uniqueBuildKeys : Bool
  maxBuildHashTableBytes : Nat

/-- The hash join for a list of conditions. `predicate` says what the mixed join makes of the
conditions that are no equalities. A join without an equality does not get past `execute`. -/
def HashJoinParameters.hashJoin (p : HashJoinParameters)
    (predicate : List (HashCondition V nl nr) → Row V nl → Row V nr → Bool)
    (cond : List (HashCondition V nl nr)) : Except String (HashJoin V nl nr) := do
  let conditions := reorderJoinConditions cond
  let keys ← (conditions.filter (·.isEquality)).mapM (·.keys)
  let others := conditions.filter fun c => !c.isEquality
  if h : keys ≠ [] then
    return {
      operatorId := p.operatorId
      joinType := p.joinType
      keys := keys
      keys_ne_nil := h
      predicate := if others.isEmpty then none else some (predicate others)
      leftProjectionMap := p.leftProjectionMap
      rightProjectionMap := p.rightProjectionMap
      uniqueBuildKeys := p.uniqueBuildKeys
      maxBuildHashTableBytes := p.maxBuildHashTableBytes }
  else .error ("Error sirius_physical_hash_join being asked to do all inequality join of type: " ++
    p.joinType.toString)

/-! ## What SQL asks -/

def HashCondition.holds (c : HashCondition V nl nr) (l : Row V nl) (r : Row V nr) : Bool :=
  c.comparison.sql (c.left.eval l) (c.right.eval r) == some true

/-- All equalities are TRUE, and so are the other conditions. -/
def sqlMatch (predicate : List (HashCondition V nl nr) → Row V nl → Row V nr → Bool)
    (cond : List (HashCondition V nl nr)) (l : Row V nl) (r : Row V nr) : Bool :=
  (cond.filter (·.isEquality)).all (fun c => c.holds l r) &&
    ((cond.filter fun c => !c.isEquality).isEmpty ||
      predicate (cond.filter fun c => !c.isEquality) l r)

/-- The mark of a left row for one equality: TRUE with a match, NULL if a NULL key leaves that open,
and FALSE otherwise. -/
def sqlMark (c : HashCondition V nl nr) (right : List (Row V nr)) (l : Row V nl) : Option Bool :=
  if right.any fun r => c.holds l r then some true
  else if c.left.eval l = none ∧ right ≠ [] ∨ ∃ r ∈ right, c.right.eval r = none then none
  else some false

/-! ## The keys -/

section Keys

variable {predicate : List (HashCondition V nl nr) → Row V nl → Row V nr → Bool}
  {cond : List (HashCondition V nl nr)} {p : HashJoinParameters} {j : HashJoin V nl nr}

omit [LinearOrder V] in
theorem filter_reorderJoinConditions (cond : List (HashCondition V nl nr)) :
    (reorderJoinConditions cond).filter (·.isEquality) = cond.filter (·.isEquality) ∧
      (reorderJoinConditions cond).filter (fun c => !c.isEquality) =
        cond.filter fun c => !c.isEquality := by
  unfold reorderJoinConditions
  split
  · exact ⟨rfl, rfl⟩
  · simp [filter_append, filter_filter]

omit [LinearOrder V] in
theorem read_of_key {n : Nat} {side : String} {e : JoinExpression V n} {k : KeyColumn V n}
    (h : e.key side = .ok k) (row : Row V n) : k.read row = e.eval row := by
  cases e with
  | boundRef column =>
    cases h
    simp [KeyColumn.read, JoinExpression.eval]
  | boundCast column cast =>
    cases h
    rfl
  | otherCast _ | other _ => cases h

/-- The hash join compares the sides of the equalities, and NULL is equal to nothing. -/
theorem keysEqual_iff {conditions : List (HashCondition V nl nr)}
    (h : conditions.mapM (·.keys) = .ok j.keys) (l : Row V nl) (r : Row V nr) :
    j.keysEqual l r = true ↔
      ∀ c ∈ conditions, ∃ a, c.left.eval l = some a ∧ c.right.eval r = some a := by
  rw [mapM_eq_ok_iff] at h
  unfold HashJoin.keysEqual
  generalize j.keys = keys at h
  induction h with
  | nil => simp
  | @cons c key conditions keys hkey _ ih =>
    obtain ⟨kl, hl, hkey⟩ := bind_eq_ok_iff.1 hkey
    obtain ⟨kr, hr, ⟨⟩⟩ := bind_eq_ok_iff.1 hkey
    rw [all_cons, Bool.and_eq_true, ih, forall_mem_cons, read_of_key hl, read_of_key hr]
    refine and_congr_left fun _ => ?_
    cases c.left.eval l with
    | none => simp
    | some a =>
      cases c.right.eval r with
      | none => simp
      | some b => simp [eq_comm (a := b)]

/-- An equality is TRUE if the sides are equal, also as NULLs for an `IS NOT DISTINCT FROM`. -/
theorem holds_iff {c : HashCondition V nl nr} (h : c.isEquality = true) (l : Row V nl)
    (r : Row V nr) :
    c.holds l r = true ↔ (∃ a, c.left.eval l = some a ∧ c.right.eval r = some a) ∨
      c.comparison = .notDistinctFrom ∧ c.left.eval l = none ∧ c.right.eval r = none := by
  obtain hc | hc : c.comparison = .equal ∨ c.comparison = .notDistinctFrom := by
    simpa [HashCondition.isEquality, isEquality] using h
  all_goals
    unfold HashCondition.holds
    rw [hc]
    cases c.left.eval l <;> cases c.right.eval r <;>
      simp [ComparisonType.sql, ComparisonType.test, eq_comm (a := (_ : V))]

theorem joins_iff (hj : p.hashJoin predicate cond = .ok j) (l : Row V nl) (r : Row V nr) :
    j.joins l r = true ↔
      (∀ c ∈ cond.filter (·.isEquality), ∃ a, c.left.eval l = some a ∧ c.right.eval r = some a) ∧
        ((cond.filter fun c => !c.isEquality) = [] ∨
          predicate (cond.filter fun c => !c.isEquality) l r = true) := by
  obtain ⟨keys, hkeys, hj⟩ := bind_eq_ok_iff.1 hj
  rw [(filter_reorderJoinConditions cond).1] at hkeys
  split at hj
  · cases hj
    rw [HashJoin.joins, Bool.and_eq_true, keysEqual_iff hkeys]
    simp only [(filter_reorderJoinConditions cond).2]
    refine and_congr_right fun _ => ?_
    cases cond.filter fun c => !c.isEquality <;> simp
  · cases hj

theorem sqlMatch_iff (l : Row V nl) (r : Row V nr) :
    sqlMatch predicate cond l r = true ↔
      (∀ c ∈ cond.filter (·.isEquality), c.holds l r = true) ∧
        ((cond.filter fun c => !c.isEquality) = [] ∨
          predicate (cond.filter fun c => !c.isEquality) l r = true) := by
  rw [sqlMatch, Bool.and_eq_true, List.all_eq_true, Bool.or_eq_true, List.isEmpty_iff]

/-- No `IS NOT DISTINCT FROM` has to match two NULLs. -/
def NoNullPair (cond : List (HashCondition V nl nr)) (l : Row V nl) (r : Row V nr) : Prop :=
  ∀ c ∈ cond, c.comparison = .notDistinctFrom →
    ¬(c.left.eval l = none ∧ c.right.eval r = none)

theorem joins_eq_sqlMatch_iff (hj : p.hashJoin predicate cond = .ok j) (l : Row V nl)
    (r : Row V nr) :
    j.joins l r = sqlMatch predicate cond l r ↔
      (sqlMatch predicate cond l r = true → NoNullPair cond l r) := by
  rw [Bool.eq_iff_iff, joins_iff hj, sqlMatch_iff]
  constructor
  · rintro h hsql c hc hcmp ⟨hl, hr⟩
    obtain ⟨a, ha, -⟩ := (h.2 hsql).1 c (mem_filter.2 ⟨hc, by
      simp [HashCondition.isEquality, isEquality, hcmp]⟩)
    rw [hl] at ha
    cases ha
  · intro h
    constructor
    · rintro ⟨heq, hothers⟩
      exact ⟨fun c hc => (holds_iff (mem_filter.1 hc).2 l r).2 (.inl (heq c hc)), hothers⟩
    · rintro ⟨heq, hothers⟩
      refine ⟨fun c hc => ?_, hothers⟩
      obtain ⟨hmem, hc'⟩ := mem_filter.1 hc
      rcases (holds_iff hc' l r).1 (heq c hc) with hsome | ⟨hcmp, hnone⟩
      · exact hsome
      · exact absurd hnone (h ⟨heq, hothers⟩ c hmem hcmp)

/-! ## Marks -/

/-- The mark of a left row is not NULL: it has a match, or no NULL leaves that open. -/
def MarkKnown (c : HashCondition V nl nr) (right : List (Row V nr)) (l : Row V nl) : Prop :=
  (∃ r ∈ right, c.holds l r = true) ∨
    (c.left.eval l = none → right = []) ∧ ∀ r ∈ right, c.right.eval r ≠ none

theorem sqlMark_eq_some_iff (c : HashCondition V nl nr) (right : List (Row V nr)) (l : Row V nl) :
    sqlMark c right l = some (right.any fun r => c.holds l r) ↔ MarkKnown c right l := by
  unfold sqlMark MarkKnown
  by_cases hany : (right.any fun r => c.holds l r) = true
  · have hmatch : ∃ r ∈ right, c.holds l r = true := any_eq_true.1 hany
    simp [hany, hmatch]
  · have hno : ¬∃ r ∈ right, c.holds l r = true := by simpa using hany
    simp only [hany, hno, Bool.false_eq_true, if_false, false_or]
    by_cases hopen : c.left.eval l = none ∧ right ≠ [] ∨ ∃ r ∈ right, c.right.eval r = none
    · rw [if_pos hopen]
      refine iff_of_false nofun ?_
      rintro ⟨hl, hr⟩
      rcases hopen with ⟨hnone, hne⟩ | ⟨r, hmem, hnone⟩
      · exact hne (hl hnone)
      · exact hr r hmem hnone
    · rw [if_neg hopen]
      rw [not_or, not_and, not_not] at hopen
      exact iff_of_true (by simp) ⟨hopen.1, fun r hr hnone => hopen.2 ⟨r, hr, hnone⟩⟩

theorem markKnown_of_ne_none {c : HashCondition V nl nr} {right : List (Row V nr)} {l : Row V nl}
    (h : sqlMark c right l ≠ none) : MarkKnown c right l := by
  rw [← sqlMark_eq_some_iff]
  unfold sqlMark at h ⊢
  split
  next hany =>
    rw [hany]
  next hany =>
    rw [if_neg hany] at h
    split
    next hopen =>
      exact absurd (if_pos hopen) h
    · rw [eq_false_of_ne_true hany]

theorem mem_sum_map {α β : Type*} {l : List α} {f : α → Multiset β} {b : β} :
    b ∈ (l.map f).sum ↔ ∃ a ∈ l, b ∈ f a := by
  induction l with
  | nil => simp
  | cons a l ih => simp [ih]

/-- The marks of cuDF are never NULL. -/
theorem mark_of_mem_output {m : Nat} {x : j.Input m} (hmark : j.joinType = .mark)
    {rows : Multiset (OutRow V)} (h : x.output = .ok rows) {out : OutRow V} (hout : out ∈ rows) :
    out.mark ≠ none := by
  rw [x.output_eq, Except.ok.injEq] at h
  rw [← h, Multiset.mem_sum] at hout
  obtain ⟨i, -, hout⟩ := hout
  obtain ⟨left, -, hout⟩ := mem_sum_map.1 hout
  obtain ⟨right, -, hout⟩ := mem_sum_map.1 hout
  dsimp only [HashJoin.spec] at hout
  rw [hmark, sqlJoin] at hout
  obtain ⟨l, -, rfl⟩ := Multiset.mem_map.1 hout
  exact Option.some_ne_none _

/-- The marks of a join on one equality are the marks of SQL if each row is output once and none of the
marks is NULL. -/
theorem output_mark_iff {m : Nat} (x : j.Input m) (hmark : j.joinType = .mark)
    {c : HashCondition V nl nr} (hc : c.comparison = .equal) (hj : p.hashJoin predicate [c] = .ok j) :
    x.output = .ok ↑(x.cutL.flatten.map fun l =>
        (⟨select j.lhsOutputColumns (some l), sqlMark c x.cutR.flatten l⟩ : OutRow V)) ↔
      (∀ i, Fits (x.groupsL i) (x.groupsR i) j.joinType) ∧
        ∀ l ∈ x.cutL.flatten, MarkKnown c x.cutR.flatten l := by
  have heq : c.isEquality = true := by simp [HashCondition.isEquality, isEquality, hc]
  have hjoins (l : Row V nl) (r : Row V nr) : j.joins l r = c.holds l r := by
    rw [Bool.eq_iff_iff, joins_iff hj, holds_iff heq]
    simp [heq, hc]
  have hspec : (∀ l ∈ x.cutL.flatten, MarkKnown c x.cutR.flatten l) →
      (↑(x.cutL.flatten.map fun l =>
        (⟨select j.lhsOutputColumns (some l), sqlMark c x.cutR.flatten l⟩ : OutRow V)) :
          Multiset (OutRow V)) = j.spec x.cutL.flatten x.cutR.flatten := by
    intro hknown
    rw [HashJoin.spec, hmark, sqlJoin, Multiset.map_coe]
    congr 1
    refine map_congr_left fun l hl => ?_
    rw [(sqlMark_eq_some_iff c _ l).2 (hknown l hl), ← HashJoin.any_eq_hasMatch]
    simp only [hjoins]
    rfl
  have hfits : x.output = .ok (j.spec x.cutL.flatten x.cutR.flatten) ↔
      ∀ i, Fits (x.groupsL i) (x.groupsR i) j.joinType := by
    rw [x.output_eq, Except.ok.injEq, x.sum_eq_spec_iff]
  rw [← hfits]
  constructor
  · intro h
    have hknown : ∀ l ∈ x.cutL.flatten, MarkKnown c x.cutR.flatten l := fun l hl =>
      markKnown_of_ne_none (mark_of_mem_output hmark h (Multiset.mem_coe.2 (mem_map_of_mem hl)))
    exact ⟨hspec hknown ▸ h, hknown⟩
  · rintro ⟨h, hknown⟩
    rw [h, hspec hknown]

end Keys

/-- **NULLs in the hash join**, for every join and every two tables, in any batches, partitions and groups:
the tasks join by `joins`, which is the relation of SQL unless two NULLs have to be matched, and a mark
join has the marks of SQL if none of them is NULL and each group of left rows meets one group. -/
theorem hashJoin_nulls (p : HashJoinParameters)
    (predicate : List (HashCondition V nl nr) → Row V nl → Row V nr → Bool)
    (cond : List (HashCondition V nl nr)) (j : HashJoin V nl nr)
    (hj : p.hashJoin predicate cond = .ok j) {m : Nat} (x : j.Input m) :
    x.output = .ok (∑ i, pairSum (fun left right =>
        sqlJoin (selected j.lhsOutputColumns j.rhsOutputColumns) j.joins left right j.joinType)
          (x.groupsL i) (x.groupsR i)) ∧
      ((∀ l ∈ x.cutL.flatten, ∀ r ∈ x.cutR.flatten, j.joins l r = sqlMatch predicate cond l r) ↔
        ∀ l ∈ x.cutL.flatten, ∀ r ∈ x.cutR.flatten,
          sqlMatch predicate cond l r = true → NoNullPair cond l r) ∧
      ∀ c, cond = [c] → c.comparison = .equal → j.joinType = .mark →
        (x.output = .ok ↑(x.cutL.flatten.map fun l =>
            (⟨select j.lhsOutputColumns (some l), sqlMark c x.cutR.flatten l⟩ : OutRow V)) ↔
          (∀ i, Fits (x.groupsL i) (x.groupsR i) j.joinType) ∧
            ∀ l ∈ x.cutL.flatten, MarkKnown c x.cutR.flatten l) := by
  refine ⟨x.output_eq, ?_, ?_⟩
  · simp only [joins_eq_sqlMatch_iff hj]
  · rintro c rfl hc hmark
    exact output_mark_iff x hmark hc hj

def onFirst (comparison : ComparisonType) : HashCondition Nat 1 1 := ⟨comparison, .boundRef (Fin.last 0), .boundRef (Fin.last 0)⟩

def ofType (joinType : JoinType) : HashJoinParameters := ⟨0, joinType, [], [], false, 0⟩

/-- The rows 7 and 8 against a build side of 7, in one partition. -/
def sevenAndEight : HashJoin.markJoin.Input 0 where
  passThrough := true
  partL _ := Fin.last 0
  partR _ := Fin.last 0
  cutL := [[row 7, row 8]]
  cutR := [[row 7]]
  concatBatchBytes := 15
  buildSideBytes := 10
  buildFoldable := true
  wholeL := false
  wholeR := false
  groupsL _ := [[row 7, row 8]]
  groupsR _ := [[row 7]]
  accepted_left := HashJoin.markJoin_accepted false
  accepted_right := HashJoin.markJoin_accepted true
  formed_left := by
    apply formed_of_labels [ConcatLabel.arrive 0 ⟨[row 7, row 8], 10⟩, ConcatLabel.sourceFinishes,
      ConcatLabel.request, ConcatLabel.create]
    decide +kernel
  formed_right := by
    apply formed_of_labels [ConcatLabel.arrive 0 ⟨[row 7], 10⟩, ConcatLabel.sourceFinishes,
      ConcatLabel.request, ConcatLabel.create]
    decide +kernel
  colocated _ _ _ := rfl
  unique h := by cases h

theorem hashJoin_nulls_sevenAndEight :
    (ofType .mark).hashJoin (fun _ _ _ => true) [onFirst .equal] = .ok HashJoin.markJoin ∧
      sevenAndEight.output = .ok {⟨[some 7], some true⟩, ⟨[some 8], some false⟩} := by
  have hknown : ∀ l ∈ sevenAndEight.cutL.flatten, MarkKnown (onFirst .equal) sevenAndEight.cutR.flatten l := by
    intro l hl
    obtain rfl | rfl : l = row 7 ∨ l = row 8 := by simpa [sevenAndEight] using hl
    · exact .inl ⟨row 7, .head _, rfl⟩
    · exact .inr ⟨nofun, fun r hr => by rw [eq_of_mem_singleton hr]; exact Option.some_ne_none _⟩
  exact ⟨rfl, ((hashJoin_nulls (ofType .mark) (fun _ _ _ => true) _ _ rfl sevenAndEight).2.2
    (onFirst .equal) rfl rfl rfl).2 ⟨fun _ => .inr rfl, hknown⟩⟩

def nullRow : Row Nat 1 := fun _ => none

abbrev firstPartition : Fin 2 := ⟨0, Nat.zero_lt_two⟩

/-- A build side of 7 and NULL, in two partitions. -/
def sevenAndNull : HashJoin.markJoin.Input 1 where
  passThrough := false
  partL _ := firstPartition
  partR r := if r (Fin.last 0) = none then Fin.last 1 else firstPartition
  cutL := [[row 8]]
  cutR := [[row 7, nullRow]]
  concatBatchBytes := 15
  buildSideBytes := 10
  buildFoldable := true
  wholeL := false
  wholeR := false
  groupsL i := if i = firstPartition then [[row 8]] else [[]]
  groupsR i := if i = firstPartition then [[row 7]] else [[nullRow]]
  accepted_left := HashJoin.markJoin_accepted false
  accepted_right := HashJoin.markJoin_accepted true
  formed_left := by
    apply formed_of_labels [ConcatLabel.arrive 0 ⟨[row 8], 10⟩, ConcatLabel.arrive 1 ⟨[], 10⟩,
      ConcatLabel.sourceFinishes, ConcatLabel.request, ConcatLabel.create, ConcatLabel.request,
      ConcatLabel.create]
    decide +kernel
  formed_right := by
    apply formed_of_labels [ConcatLabel.arrive 0 ⟨[row 7], 10⟩, ConcatLabel.arrive 1 ⟨[nullRow], 10⟩,
      ConcatLabel.sourceFinishes, ConcatLabel.request, ConcatLabel.create, ConcatLabel.request,
      ConcatLabel.create]
    decide +kernel
  colocated l r h := by
    cases hnone : r 0 with
    | none => simp [HashJoin.keysEqual, HashJoin.markJoin, KeyColumn.read, hnone] at h
    | some v => simp [partOf, hnone]
  unique h := by cases h

/-- Two NULLs are not distinct but not matched. A mark that SQL leaves open is FALSE, for a NULL on the
left and for one in another partition of the build side. -/
theorem null_keys_not_matched :
    (∃ j, (ofType .inner).hashJoin (fun _ _ _ => true) [onFirst .notDistinctFrom] = .ok j ∧
      j.execute .standard [nullRow] [nullRow] = .ok 0 ∧
      sqlMatch (fun _ _ _ => true) [onFirst .notDistinctFrom] nullRow nullRow = true) ∧
    (∃ j, (ofType .mark).hashJoin (fun _ _ _ => true) [onFirst .equal] = .ok j ∧
      j.execute .standard [nullRow] [row 1] = .ok {⟨[none], some false⟩} ∧
      sqlMark (onFirst .equal) [row 1] nullRow = none) ∧
    (ofType .mark).hashJoin (fun _ _ _ => true) [onFirst .equal] = .ok HashJoin.markJoin ∧
      sevenAndNull.output = .ok {⟨[some 8], some false⟩} ∧
      sqlMark (onFirst .equal) [row 7, nullRow] (row 8) = none :=
  ⟨⟨_, rfl, rfl, rfl⟩, ⟨_, rfl, rfl, rfl⟩, rfl, by decide +kernel, rfl⟩

end Sirius.Join
