import Mathlib.Tactic.Common

/-!
# Order keys

The keys of an ORDER BY compare cells with a direction and a place for NULLs. cuDF has its own notion:
it places NULLs in the ascending order and reverses the result for a descending column, so that
`to_cudf_null_order` swaps the place of NULLs for descending keys. With that the order of cuDF is the
order of SQL (`cudfCompare_eq`), and it is a total preorder on the rows.
-/

namespace Sirius.Sort

inductive OrderType where
  | ascending
  | descending
  deriving DecidableEq, Repr

inductive OrderByNullType where
  | nullsFirst
  | nullsLast
  deriving DecidableEq, Repr

structure BoundOrderByNode where
  index : Nat
  type : OrderType
  nullOrder : OrderByNullType
  deriving DecidableEq, Repr

inductive CudfOrder where
  | ascending
  | descending
  deriving DecidableEq, Repr

inductive CudfNullOrder where
  | before
  | after
  deriving DecidableEq, Repr

def toCudfOrder (type : OrderType) : CudfOrder :=
  if type = .descending then .descending else .ascending

def toCudfNullOrder (type : OrderType) (nulls : OrderByNullType) : CudfNullOrder :=
  let result : CudfNullOrder := if nulls = .nullsFirst then .before else .after
  if type = .descending then if result = .before then .after else .before else result

section Cells

variable {V : Type} [Ord V]

/-- The comparison of cuDF: in the ascending order, and then reversed for a descending column. -/
def cudfCompare (order : CudfOrder) (nulls : CudfNullOrder) (a b : Option V) : Ordering :=
  let result : Ordering :=
    match a, b, nulls with
    | none, none, _ => .eq
    | none, some _, .before | some _, none, .after => .lt
    | none, some _, .after | some _, none, .before => .gt
    | some x, some y, _ => compare x y
  match order with
  | .ascending => result
  | .descending => result.swap

/-- The comparison of SQL: NULLs stand where the key says, in either direction. -/
def sqlCompare (node : BoundOrderByNode) (a b : Option V) : Ordering :=
  match a, b with
  | none, none => .eq
  | none, some _ => if node.nullOrder = .nullsFirst then .lt else .gt
  | some _, none => if node.nullOrder = .nullsFirst then .gt else .lt
  | some x, some y => if node.type = .ascending then compare x y else compare y x

variable [Std.TransOrd V]

/-- **NULLs.** With the swapped place of NULLs cuDF compares as SQL does. -/
theorem cudfCompare_eq (node : BoundOrderByNode) (a b : Option V) :
    cudfCompare (toCudfOrder node.type) (toCudfNullOrder node.type node.nullOrder) a b =
      sqlCompare node a b := by
  obtain ⟨index, type, nulls⟩ := node
  have hswap (x y : V) : (compare x y).swap = compare y x := Std.OrientedOrd.eq_swap.symm
  cases type <;> cases nulls <;> cases a <;> cases b <;>
    simp [cudfCompare, sqlCompare, toCudfOrder, toCudfNullOrder, hswap]

instance (node : BoundOrderByNode) : Std.TransCmp (sqlCompare (V := V) node) where
  eq_swap {a b} := by
    obtain ⟨index, type, nulls⟩ := node
    have hswap (x y : V) : compare x y = (compare y x).swap := Std.OrientedOrd.eq_swap
    cases type <;> cases nulls <;> cases a <;> cases b <;> simp [sqlCompare] <;> exact hswap _ _
  isLE_trans {a b c} hab hbc := by
    obtain ⟨index, type, nulls⟩ := node
    cases type <;> cases nulls <;> cases a <;> cases b <;> cases c <;>
      simp [sqlCompare] at hab hbc ⊢
    · exact Std.TransCmp.isLE_trans hab hbc
    · exact Std.TransCmp.isLE_trans hab hbc
    · exact Std.TransCmp.isLE_trans hbc hab
    · exact Std.TransCmp.isLE_trans hbc hab

end Cells

/-! ## Rows -/

abbrev Row (V : Type) := List (Option V)

def gather {V : Type} (indices : List Nat) (row : Row V) : Row V :=
  indices.map fun i => row.getD i none

theorem gather_range {V : Type} (row : Row V) : gather (List.range row.length) row = row := by
  apply List.ext_getElem
  · simp [gather]
  · intro i _ hi
    simp [gather, List.getD_eq_getElem?_getD, hi]

section Rows

variable {V : Type} [Ord V]

/-- The lexicographic comparison of keys that cuDF makes with the orders of the columns. -/
def cudfCompareKeys : List (CudfOrder × CudfNullOrder) → Row V → Row V → Ordering
  | [], _, _ => .eq
  | (order, nulls) :: columns, a, b =>
    (cudfCompare order nulls (a.headD none) (b.headD none)).then
      (cudfCompareKeys columns a.tail b.tail)

/-- The key columns, and their orders, that every sort operator derives from the keys. -/
def orderKeyIdx (orders : List BoundOrderByNode) : List Nat := orders.map (·.index)

def cudfColumns (orders : List BoundOrderByNode) : List (CudfOrder × CudfNullOrder) :=
  orders.map fun node => (toCudfOrder node.type, toCudfNullOrder node.type node.nullOrder)

def sqlCompareRows : List BoundOrderByNode → Row V → Row V → Ordering
  | [], _, _ => .eq
  | node :: orders, r, r' =>
    (sqlCompare node (r.getD node.index none) (r'.getD node.index none)).then
      (sqlCompareRows orders r r')

variable [Std.TransOrd V]

instance (order : CudfOrder) (nulls : CudfNullOrder) :
    Std.TransCmp (cudfCompare (V := V) order nulls) := by
  -- every pair of a direction and a place is that of some key
  obtain ⟨node, rfl, rfl⟩ : ∃ node : BoundOrderByNode,
      toCudfOrder node.type = order ∧ toCudfNullOrder node.type node.nullOrder = nulls := by
    cases order <;> cases nulls
    · exact ⟨⟨0, .ascending, .nullsFirst⟩, rfl, rfl⟩
    · exact ⟨⟨0, .ascending, .nullsLast⟩, rfl, rfl⟩
    · exact ⟨⟨0, .descending, .nullsLast⟩, rfl, rfl⟩
    · exact ⟨⟨0, .descending, .nullsFirst⟩, rfl, rfl⟩
  have heq : cudfCompare (V := V) (toCudfOrder node.type) (toCudfNullOrder node.type node.nullOrder) =
      sqlCompare node := funext fun a => funext fun b => cudfCompare_eq node a b
  rw [heq]
  infer_instance

/-- A preorder of a part of a value is a preorder of the values. -/
theorem transCmp_comap {α β : Type} (cmp : β → β → Ordering) [Std.TransCmp cmp] (f : α → β) :
    Std.TransCmp fun a b => cmp (f a) (f b) where
  eq_swap {a b} := by exact Std.OrientedCmp.eq_swap
  isLE_trans {a b c} hab hbc := by exact Std.TransCmp.isLE_trans hab hbc

instance transCmp_cudfCompareKeys (columns : List (CudfOrder × CudfNullOrder)) :
    Std.TransCmp (cudfCompareKeys (V := V) columns) := by
  induction columns with
  | nil => exact { eq_swap := rfl, isLE_trans := fun _ _ => rfl }
  | cons column columns ih =>
    -- a lexicographic comparison: the first cell, then the others
    have hhead := transCmp_comap (cudfCompare (V := V) column.1 column.2) (List.headD · none)
    have htail := transCmp_comap (cudfCompareKeys (V := V) columns) List.tail
    exact inferInstanceAs (Std.TransCmp (compareLex
      (fun a b : Row V => cudfCompare column.1 column.2 (a.headD none) (b.headD none))
      (fun a b => cudfCompareKeys columns a.tail b.tail)))

theorem cudfCompareKeys_gather (orders : List BoundOrderByNode) (r r' : Row V) :
    cudfCompareKeys (cudfColumns orders) (gather (orderKeyIdx orders) r)
      (gather (orderKeyIdx orders) r') = sqlCompareRows orders r r' := by
  induction orders with
  | nil => rfl
  | cons node orders ih =>
    rw [sqlCompareRows, ← ih, ← cudfCompare_eq]
    rfl

end Rows

end Sirius.Sort
