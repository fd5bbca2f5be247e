import Mathlib.Order.Basic
import Mathlib.Tactic.Common

/-!
# Binary search

The loop that halves an interval until it has found the place where a predicate changes from true to
false (`partitionPoint`).
-/

namespace Sirius.Lib

/-- `while (lo < hi)`: the lower half goes if the predicate holds in the middle. -/
def partitionLoop (p : Nat → Bool) : Nat → Nat → Nat → Nat
  | 0, lo, _ => lo
  | fuel + 1, lo, hi =>
    if lo < hi then
      let mid := lo + (hi - lo) / 2
      if p mid then partitionLoop p fuel (mid + 1) hi else partitionLoop p fuel lo mid
    else lo

/-- The binary search in `[lo, hi)`. No more rounds than indices are needed. -/
def partitionPoint (p : Nat → Bool) (lo hi : Nat) : Nat := partitionLoop p (hi - lo) lo hi

section

variable {p : Nat → Bool} {lo hi r : Nat}

theorem partitionLoop_eq {fuel : Nat} (hfuel : hi - lo ≤ fuel) (hlo : lo ≤ r) (hhi : r ≤ hi)
    (hbelow : ∀ i, lo ≤ i → i < r → p i = true) (habove : ∀ i, r ≤ i → i < hi → p i = false) :
    partitionLoop p fuel lo hi = r := by
  induction fuel generalizing lo hi with
  | zero =>
    rw [partitionLoop]
    omega
  | succ fuel ih =>
    rw [partitionLoop]
    split
    next hlt =>
      dsimp only
      -- the middle tells on which side the place is
      by_cases hmid : lo + (hi - lo) / 2 < r
      · rw [if_pos (hbelow _ (by omega) hmid)]
        exact ih (by omega) hmid hhi (fun i hi' => hbelow i (by omega)) habove
      · have hfalse : p (lo + (hi - lo) / 2) = false := habove _ (by omega) (by omega)
        rw [hfalse, if_neg Bool.false_ne_true]
        exact ih (by omega) hlo (by omega) hbelow fun i hr hi' => habove i hr (by omega)
    · omega

/-- **The search finds the place** where the predicate changes. -/
theorem partitionPoint_eq (hlo : lo ≤ r) (hhi : r ≤ hi)
    (hbelow : ∀ i, lo ≤ i → i < r → p i = true) (habove : ∀ i, r ≤ i → i < hi → p i = false) :
    partitionPoint p lo hi = r :=
  partitionLoop_eq (Nat.le_refl _) hlo hhi hbelow habove

end

end Sirius.Lib
