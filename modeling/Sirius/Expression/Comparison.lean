import Mathlib.Algebra.Order.Ring.Nat

/-!
# Comparisons

`sirius::comparison_type` and its meaning in SQL. A value is an `Option`, with `none` for NULL; the
result is a truth value of three-valued logic, with `none` for UNKNOWN.
-/

namespace Sirius.Expression

inductive ComparisonType where
  | equal
  | notEqual
  | lt
  | le
  | gt
  | ge
  | distinctFrom
  | notDistinctFrom
  deriving DecidableEq, Repr

variable {V : Type} [LinearOrder V]

def ComparisonType.test : ComparisonType → V → V → Bool
  | .equal, a, b | .notDistinctFrom, a, b => decide (a = b)
  | .notEqual, a, b | .distinctFrom, a, b => decide (a ≠ b)
  | .lt, a, b => decide (a < b)
  | .le, a, b => decide (a ≤ b)
  | .gt, a, b => decide (b < a)
  | .ge, a, b => decide (b ≤ a)

/-- **The SQL meaning.** NULL makes a comparison UNKNOWN, except that `IS [NOT] DISTINCT FROM`
treats it as a value of its own. -/
def ComparisonType.sql : ComparisonType → Option V → Option V → Option Bool
  | .distinctFrom, a, b => some (decide (a ≠ b))
  | .notDistinctFrom, a, b => some (decide (a = b))
  | c, a, b => Option.map₂ c.test a b

end Sirius.Expression
