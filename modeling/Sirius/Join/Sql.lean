import Mathlib.Algebra.Order.BigOperators.Group.Finset
import Sirius.Join.Concat
import Sirius.Join.PairTasks
import Sirius.Lib.BagJoin

/-!
# The join of two tables

What a join is for: the bag of output rows it makes of a left and a right table, for each join
type. The join of two tables is the sum of the joins of their partitions (`sqlJoin_part`). It is
the sum over the pairs of groups only when the side whose rows must meet all rows of the other
comes in one piece (`pairSum_of_fits`).
-/

namespace Sirius.Join

open Lib Multiset

variable {L R O : Type}

structure OutputForm (L R O : Type) where
  /-- A row with the columns of both sides; a missing side is filled with NULL. -/
  pair : Option L → Option R → O
  left : L → O
  right : R → O
  mark : L → Bool → O

/-- A row of `n` columns; `none` is NULL. -/
abbrev Row (V : Type) (n : Nat) := Fin n → Option V

def row {V : Type} (v : V) : Row V 1 := fun _ => some v

/-- A row of a join's output, with the boolean that a mark join adds. -/
structure OutRow (V : Type) where
  columns : List (Option V)
  mark : Option Bool
  deriving DecidableEq, Repr

/-- The output columns of one side, as the constructors of the joins compute them from a projection
map. -/
def outputColumns (n : Nat) (projectionMap : List Nat) : List (Fin n) :=
  if projectionMap.isEmpty then List.finRange n
  else projectionMap.filterMap fun c => if h : c < n then some ⟨c, h⟩ else none

def select {V : Type} {n : Nat} (cols : List (Fin n)) (row : Option (Row V n)) : List (Option V) :=
  cols.map fun c => row.bind fun row => row c

def selected {V : Type} {nl nr : Nat} (lhs : List (Fin nl)) (rhs : List (Fin nr)) :
    OutputForm (Row V nl) (Row V nr) (OutRow V) where
  pair l r := ⟨select lhs l ++ select rhs r, none⟩
  left l := ⟨select lhs (some l), none⟩
  right r := ⟨select rhs (some r), none⟩
  mark l matched := ⟨select lhs (some l), some matched⟩

def sqlJoin (out : OutputForm L R O) (θ : L → R → Bool) (A : Multiset L) (B : Multiset R) :
    JoinType → Multiset O
  | .inner => (innerJoin θ A B).map fun x => out.pair (some x.1) (some x.2)
  | .left => (leftJoin θ A B).map fun x => out.pair (some x.1) x.2
  | .right =>
    (innerJoin θ A B).map (fun x => out.pair (some x.1) (some x.2)) +
      (antiJoin (fun r l => θ l r) B A).map fun r => out.pair none (some r)
  | .outer => (fullJoin θ A B).map fun x => out.pair x.1 x.2
  | .semi => (semiJoin θ A B).map out.left
  | .anti => (antiJoin θ A B).map out.left
  | .rightSemi => (semiJoin (fun r l => θ l r) B A).map out.right
  | .rightAnti => (antiJoin (fun r l => θ l r) B A).map out.right
  | .mark => A.map fun l => out.mark l (hasMatch θ B l)
  | .single | .invalid => 0

variable {out : OutputForm L R O} {θ : L → R → Bool}

theorem map_leftJoin_swap (A : Multiset L) (B : Multiset R) :
    (leftJoin (fun r l => θ l r) B A).map (fun x => out.pair x.2 (some x.1)) =
      sqlJoin out θ A B .right := by
  rw [leftJoin, sqlJoin, map_add, map_map, map_map,
    ← innerJoin_swap A B, map_map]
  rfl

/-! ## Partitions -/

section Partitioned

variable {n : Nat} {partL : L → Fin n} {partR : R → Fin n}

theorem mark_part (hco : ∀ l r, θ l r = true → partL l = partR r) (A : Multiset L)
    (B : Multiset R) :
    ∑ i, (A.filter fun l => partL l = i).map
        (fun l => out.mark l (hasMatch θ (B.filter fun r => partR r = i) l)) =
      A.map fun l => out.mark l (hasMatch θ B l) := by
  conv_rhs => rw [← sum_filter_key partL A, ← sum_map]
  refine Finset.sum_congr rfl fun i _ => map_congr rfl fun l hl => ?_
  obtain rfl : partL l = i := (mem_filter.mp hl).2
  rw [hasMatch_part hco]

/-- **A join is the sum of the joins of the partitions** when matching rows share theirs. -/
theorem sqlJoin_part (hco : ∀ l r, θ l r = true → partL l = partR r) (A : Multiset L)
    (B : Multiset R) (joinType : JoinType) :
    ∑ i, sqlJoin out θ (A.filter fun l => partL l = i) (B.filter fun r => partR r = i) joinType =
      sqlJoin out θ A B joinType := by
  have hco' : ∀ r l, θ l r = true → partR r = partL l := fun r l h => (hco l r h).symm
  cases joinType with
  | inner => simp only [sqlJoin, sum_map, innerJoin_part hco]
  | left => simp only [sqlJoin, sum_map, leftJoin_part hco]
  | right =>
    simp only [sqlJoin, Finset.sum_add_distrib, sum_map, innerJoin_part hco, antiJoin_part hco']
  | outer => simp only [sqlJoin, sum_map, fullJoin_part hco]
  | semi => simp only [sqlJoin, sum_map, semiJoin_part hco]
  | anti => simp only [sqlJoin, sum_map, antiJoin_part hco]
  | rightSemi => simp only [sqlJoin, sum_map, semiJoin_part hco']
  | rightAnti => simp only [sqlJoin, sum_map, antiJoin_part hco']
  | mark => exact mark_part hco A B
  | single | invalid => simp [sqlJoin]

end Partitioned

/-! ## Groups -/

def pairSum (e : List L → List R → Multiset O) (lefts : List (List L)) (rights : List (List R)) :
    Multiset O :=
  (lefts.map fun left => (rights.map fun right => e left right).sum).sum

variable (e : List L → List R → Multiset O)

theorem sum_grid (parts : List (List (List L) × List (List R))) :
    ((grid parts).map fun task => e task.1 task.2).sum =
      (parts.map fun x => pairSum e x.1 x.2).sum := by
  induction parts with
  | nil => rfl
  | cons part parts ih =>
    rw [List.map_cons, List.sum_cons, ← ih]
    simp only [grid, List.flatMap_cons, List.map_append, List.sum_append]
    congr 1
    simp [pairSum, List.flatMap_def, List.sum_flatten, Function.comp_def]

theorem sum_coe (groups : List (List L)) :
    (groups.map ofList).sum = (groups.flatten : Multiset L) := by
  induction groups with
  | nil => rfl
  | cons group groups ih =>
    rw [List.map_cons, List.sum_cons, ih, List.flatten_cons, coe_add]

theorem additive_groups {f : Multiset L → Multiset O} (hzero : f 0 = 0)
    (hadd : ∀ A A', f (A + A') = f A + f A') (groups : List (List L)) :
    (groups.map fun group : List L => f group).sum = f groups.flatten := by
  rw [← sum_coe, additive_list_sum hzero hadd, List.map_map]
  rfl

theorem pairSum_nil_right (lefts : List (List L)) : pairSum e lefts [] = 0 := by
  simp [pairSum]

theorem pairSum_nil_left (rights : List (List R)) : pairSum e [] rights = 0 := rfl

theorem pairSum_singleton_right (lefts : List (List L)) (right : List R) :
    pairSum e lefts [right] = (lefts.map fun left => e left right).sum := by
  simp [pairSum]

theorem pairSum_singleton_left (left : List L) (rights : List (List R)) :
    pairSum e [left] rights = (rights.map fun right => e left right).sum := by
  simp [pairSum]

/-- What the concat operators of a hash join guarantee about the groups of a partition: the side
that a join type needs in one piece has one group at most. -/
def Whole (lefts : List (List L)) (rights : List (List R)) : JoinType → Prop
  | .left | .anti | .semi => rights.length ≤ 1
  | .right | .rightAnti | .rightSemi => lefts.length ≤ 1
  | .outer => lefts.length ≤ 1 ∧ rights.length ≤ 1
  | .inner | .mark | .single | .invalid => True

/-- The groups of a partition give each row that must be output, matched or not, a group to
meet. A row of a mark join is output once for each. -/
def Fits (lefts : List (List L)) (rights : List (List R)) : JoinType → Prop
  | .left | .anti => lefts.flatten = [] ∨ rights ≠ []
  | .right | .rightAnti => rights.flatten = [] ∨ lefts ≠ []
  | .outer => (lefts.flatten = [] ∨ rights ≠ []) ∧ (rights.flatten = [] ∨ lefts ≠ [])
  | .mark => lefts.flatten = [] ∨ rights.length = 1
  | .inner | .semi | .rightSemi | .single | .invalid => True

section Grouped

variable {lefts : List (List L)} {rights : List (List R)} {joinType : JoinType}

theorem pairSum_inner :
    pairSum (fun left right => sqlJoin out θ left right .inner) lefts rights =
      sqlJoin out θ lefts.flatten rights.flatten .inner := by
  have hright (left : List L) : 
      (rights.map fun right : List R => sqlJoin out θ left right .inner).sum =
        sqlJoin out θ left rights.flatten .inner := by
    apply additive_groups (f := fun B => sqlJoin out θ left B .inner)
    · simp [sqlJoin]
    · intro B B'
      simp only [sqlJoin, innerJoin_add_right, map_add]
  rw [pairSum]
  simp only [hright]
  apply additive_groups (f := fun A => sqlJoin out θ A rights.flatten .inner)
  · simp [sqlJoin]
  · intro A A'
    simp only [sqlJoin, innerJoin_add_left, map_add]

def JoinType.leftDriven : JoinType → Bool
  | .left | .semi | .anti | .mark => true
  | _ => false

def JoinType.rightDriven : JoinType → Bool
  | .right | .rightSemi | .rightAnti => true
  | _ => false

theorem sqlJoin_zero_left (h : joinType.leftDriven = true) (B : Multiset R) :
    sqlJoin out θ 0 B joinType = 0 := by
  cases joinType <;> simp [JoinType.leftDriven] at h <;> simp [sqlJoin]

theorem sqlJoin_add_left (h : joinType.leftDriven = true) (A A' : Multiset L) (B : Multiset R) :
    sqlJoin out θ (A + A') B joinType =
      sqlJoin out θ A B joinType + sqlJoin out θ A' B joinType := by
  cases joinType <;> simp [JoinType.leftDriven] at h <;>
    simp only [sqlJoin, leftJoin_add_left, semiJoin_add_left, antiJoin_add_left, map_add]

theorem sqlJoin_zero_right (h : joinType.rightDriven = true) (A : Multiset L) :
    sqlJoin out θ A 0 joinType = 0 := by
  cases joinType <;> simp [JoinType.rightDriven] at h <;> simp [sqlJoin]

theorem sqlJoin_add_right (h : joinType.rightDriven = true) (A : Multiset L) (B B' : Multiset R) :
    sqlJoin out θ A (B + B') joinType =
      sqlJoin out θ A B joinType + sqlJoin out θ A B' joinType := by
  cases joinType <;> simp [JoinType.rightDriven] at h
  · simp only [sqlJoin, innerJoin_add_right, antiJoin_add_left, map_add]
    exact add_add_add_comm _ _ _ _
  · simp only [sqlJoin, semiJoin_add_left, map_add]
  · simp only [sqlJoin, antiJoin_add_left, map_add]

theorem eq_nil_or_singleton {α : Type} {xs : List α} (h : xs.length ≤ 1) :
    xs = [] ∨ ∃ x, xs = [x] := by
  match xs, h with
  | [], _ => exact Or.inl rfl
  | [x], _ => exact Or.inr ⟨x, rfl⟩

/-- One right group at most: only its absence can matter. -/
theorem pairSum_leftDriven (h : joinType.leftDriven = true) (hwhole : rights.length ≤ 1)
    (hnone : rights = [] → sqlJoin out θ lefts.flatten 0 joinType = 0) :
    pairSum (fun left right => sqlJoin out θ left right joinType) lefts rights =
      sqlJoin out θ lefts.flatten rights.flatten joinType := by
  obtain rfl | ⟨right, rfl⟩ := eq_nil_or_singleton hwhole
  · rw [pairSum_nil_right]
    exact (hnone rfl).symm
  · rw [pairSum_singleton_right, List.flatten_singleton]
    exact additive_groups (f := fun A => sqlJoin out θ A right joinType) (sqlJoin_zero_left h _)
      (fun A A' => sqlJoin_add_left h A A' _) lefts

theorem pairSum_rightDriven (h : joinType.rightDriven = true) (hwhole : lefts.length ≤ 1)
    (hnone : lefts = [] → sqlJoin out θ 0 rights.flatten joinType = 0) :
    pairSum (fun left right => sqlJoin out θ left right joinType) lefts rights =
      sqlJoin out θ lefts.flatten rights.flatten joinType := by
  obtain rfl | ⟨left, rfl⟩ := eq_nil_or_singleton hwhole
  · rw [pairSum_nil_left]
    exact (hnone rfl).symm
  · rw [pairSum_singleton_left, List.flatten_singleton]
    exact additive_groups (f := fun B => sqlJoin out θ left B joinType) (sqlJoin_zero_right h _)
      (fun B B' => sqlJoin_add_right h _ B B') rights

theorem pairSum_outer (hleft : lefts.length ≤ 1) (hright : rights.length ≤ 1)
    (hfits : Fits lefts rights .outer) :
    pairSum (fun left right => sqlJoin out θ left right .outer) lefts rights =
      sqlJoin out θ lefts.flatten rights.flatten .outer := by
  obtain ⟨hl, hr⟩ := hfits
  obtain rfl | ⟨left, rfl⟩ := eq_nil_or_singleton hleft
  · have hempty : rights.flatten = [] := hr.resolve_right fun h => h rfl
    rw [pairSum_nil_left, hempty]
    simp [sqlJoin, fullJoin]
  · obtain rfl | ⟨right, rfl⟩ := eq_nil_or_singleton hright
    · have hempty : [left].flatten = [] := hl.resolve_right fun h => h rfl
      rw [pairSum_nil_right, hempty]
      simp [sqlJoin, fullJoin]
    · simp [pairSum]

theorem card_sum_mark (left : List L) (rights : List (List R)) :
    card ((rights.map fun right : List R => sqlJoin out θ left right .mark).sum) =
      rights.length * left.length := by
  induction rights with
  | nil => simp
  | cons right rights ih =>
    rw [List.map_cons, List.sum_cons, card_add, ih, List.length_cons, Nat.succ_mul,
      Nat.add_comm]
    simp [sqlJoin]

theorem card_pairSum_mark (out : OutputForm L R O) (θ : L → R → Bool) (lefts : List (List L))
    (rights : List (List R)) :
    card (pairSum (fun left right => sqlJoin out θ left right .mark) lefts rights) =
      rights.length * lefts.flatten.length := by
  induction lefts with
  | nil => simp [pairSum]
  | cons left lefts ih =>
    rw [pairSum] at ih
    rw [pairSum, List.map_cons, List.sum_cons, card_add, card_sum_mark, ih,
      List.flatten_cons, List.length_append, Nat.mul_add]

theorem pairSum_mark (hfits : Fits lefts rights .mark) :
    pairSum (fun left right => sqlJoin out θ left right .mark) lefts rights =
      sqlJoin out θ lefts.flatten rights.flatten .mark := by
  obtain hempty | hone := hfits
  · have hcard := card_pairSum_mark out θ lefts rights
    rw [hempty] at hcard ⊢
    rw [card_eq_zero.mp hcard]
    rfl
  · refine pairSum_leftDriven rfl (Nat.le_of_eq hone) ?_
    rintro rfl
    cases hone

/-- **The join of a partition is the sum over the pairs of its groups** when the groups fit. -/
theorem pairSum_of_fits (hwhole : Whole lefts rights joinType) (hfits : Fits lefts rights joinType) :
    pairSum (fun left right => sqlJoin out θ left right joinType) lefts rights =
      sqlJoin out θ lefts.flatten rights.flatten joinType := by
  cases joinType with
  | inner => exact pairSum_inner
  | left | anti =>
    refine pairSum_leftDriven rfl hwhole fun hnil => ?_
    rw [hfits.resolve_right fun h => h hnil]
    exact sqlJoin_zero_left rfl _
  | semi => exact pairSum_leftDriven rfl hwhole fun _ => by simp [sqlJoin]
  | right | rightAnti =>
    refine pairSum_rightDriven rfl hwhole fun hnil => ?_
    rw [hfits.resolve_right fun h => h hnil]
    exact sqlJoin_zero_right rfl _
  | rightSemi => exact pairSum_rightDriven rfl hwhole fun _ => by simp [sqlJoin]
  | outer => exact pairSum_outer hwhole.1 hwhole.2 hfits
  | mark => exact pairSum_mark hfits
  | single | invalid => simp [pairSum, sqlJoin]

theorem pairSum_of_not_fits (out : OutputForm L R O) (θ : L → R → Bool) (hmark : joinType ≠ .mark)
    (hfits : ¬ Fits lefts rights joinType) :
    pairSum (fun left right => sqlJoin out θ left right joinType) lefts rights = 0 ∧
      sqlJoin out θ lefts.flatten rights.flatten joinType ≠ 0 := by
  cases joinType with
  | inner | semi | rightSemi | single | invalid => exact absurd trivial hfits
  | mark => exact absurd rfl hmark
  | left | anti =>
    simp only [Fits, not_or, not_not] at hfits
    obtain ⟨hrows, rfl⟩ := hfits
    refine ⟨pairSum_nil_right _ _, ?_⟩
    simpa [sqlJoin] using hrows
  | right | rightAnti =>
    simp only [Fits, not_or, not_not] at hfits
    obtain ⟨hrows, rfl⟩ := hfits
    refine ⟨rfl, ?_⟩
    simpa [sqlJoin] using hrows
  | outer =>
    simp only [Fits, not_and_or, not_or, not_not] at hfits
    obtain ⟨hrows, rfl⟩ | ⟨hrows, rfl⟩ := hfits
    · refine ⟨pairSum_nil_right _ _, ?_⟩
      simpa [sqlJoin, fullJoin] using hrows
    · refine ⟨rfl, ?_⟩
      simpa [sqlJoin, fullJoin] using hrows

end Grouped

/-! ## Partitions and groups together -/

section Delivered

variable {n : Nat} {partL : L → Fin n} {partR : R → Fin n} {A : Multiset L} {B : Multiset R}
  {groupsL : Fin n → List (List L)} {groupsR : Fin n → List (List R)}

structure Holds (partL : L → Fin n) (partR : R → Fin n) (A : Multiset L) (B : Multiset R)
    (groupsL : Fin n → List (List L)) (groupsR : Fin n → List (List R)) : Prop where
  left : ∀ i, ((groupsL i).flatten : Multiset L) = A.filter fun l => partL l = i
  right : ∀ i, ((groupsR i).flatten : Multiset R) = B.filter fun r => partR r = i
  /-- The right side has reached no partition or all that the left side has reached. -/
  reached : (∀ i, groupsR i = []) ∨ ∀ i, (groupsL i).flatten ≠ [] → groupsR i ≠ []

section

variable (h : Holds partL partR A B groupsL groupsR)

include h

theorem sqlJoin_eq_sum (hco : ∀ l r, θ l r = true → partL l = partR r) (joinType : JoinType) :
    sqlJoin out θ A B joinType =
      ∑ i, sqlJoin out θ (groupsL i).flatten (groupsR i).flatten joinType := by
  rw [← sqlJoin_part hco]
  simp only [h.left, h.right]

variable {joinType : JoinType}

theorem fits_of_card_eq (hwhole : ∀ i, Whole (groupsL i) (groupsR i) joinType)
    (hcard : ∑ i, card (pairSum (fun left right => sqlJoin out θ left right joinType)
      (groupsL i) (groupsR i)) = ∑ i, card (sqlJoin out θ (groupsL i).flatten (groupsR
      i).flatten joinType))
    (i : Fin n) : Fits (groupsL i) (groupsR i) joinType := by
  by_cases hmark : joinType = .mark
  · subst hmark
    have hsize : ∀ i, card (sqlJoin out θ (groupsL i).flatten (groupsR i).flatten .mark) =
        (groupsL i).flatten.length := fun i => by
      rw [sqlJoin, card_map, coe_card]
    simp only [card_pairSum_mark, hsize] at hcard
    -- Both sides of the equation are sums of comparable numbers, whichever side reached nothing.
    have hpart : (groupsR i).length * (groupsL i).flatten.length =
        (groupsL i).flatten.length := by
      rcases h.reached with hnone | hall
      · refine (Finset.sum_eq_sum_iff_of_le fun i _ => ?_).mp hcard i (Finset.mem_univ i)
        simp [hnone i]
      · refine ((Finset.sum_eq_sum_iff_of_le fun i _ => ?_).mp hcard.symm i
          (Finset.mem_univ i)).symm
        by_cases hrows : (groupsL i).flatten = []
        · simp [hrows]
        · exact Nat.le_mul_of_pos_left _ (List.length_pos_iff.mpr (hall i hrows))
    by_cases hrows : (groupsL i).flatten = []
    · exact Or.inl hrows
    · exact Or.inr (Nat.mul_right_cancel (List.length_pos_iff.mpr hrows)
        (hpart.trans (Nat.one_mul _).symm))
  · -- A partition that does not fit lacks output, and no partition has too much.
    have hle : ∀ i ∈ Finset.univ, card
        (pairSum (fun left right => sqlJoin out θ left right joinType) (groupsL i) (groupsR i)) ≤
          card (sqlJoin out θ (groupsL i).flatten (groupsR i).flatten joinType) := by
      intro i _
      by_cases hfits : Fits (groupsL i) (groupsR i) joinType
      · rw [pairSum_of_fits (hwhole i) hfits]
      · rw [(pairSum_of_not_fits out θ hmark hfits).1]
        exact Nat.zero_le _
    have hpart := (Finset.sum_eq_sum_iff_of_le hle).mp hcard i (Finset.mem_univ i)
    by_contra hfits
    obtain ⟨hzero, hne⟩ := pairSum_of_not_fits out θ hmark hfits
    rw [hzero] at hpart
    exact hne (card_eq_zero.mp hpart.symm)

/-- **The pairs of groups give the join of the whole tables exactly when the groups fit.** -/
theorem sum_pairSum_eq_iff (hco : ∀ l r, θ l r = true → partL l = partR r)
    (hwhole : ∀ i, Whole (groupsL i) (groupsR i) joinType) :
    ∑ i, pairSum (fun left right => sqlJoin out θ left right joinType) (groupsL i) (groupsR i) =
        sqlJoin out θ A B joinType ↔
      ∀ i, Fits (groupsL i) (groupsR i) joinType := by
  rw [sqlJoin_eq_sum h hco]
  constructor
  · intro heq
    have hcard := congrArg card heq
    rw [card_sum, card_sum] at hcard
    exact fits_of_card_eq h hwhole hcard
  · intro hfits
    exact Finset.sum_congr rfl fun i _ => pairSum_of_fits (hwhole i) (hfits i)

end

end Delivered

end Sirius.Join
