import Mathlib.Algebra.BigOperators.Group.Multiset.Basic

/-!
# Tallies

`tally key w k m` adds up the weight `w a` of the elements `a` of a multiset whose key is `k`.
Counters of a system (tasks in flight of a pipeline, batches held by it, threads inside a lock) are
tallies of its pending work, and a step that replaces a few elements changes them by the tally of
these few.
-/

namespace Sirius.Lib

variable {α κ A : Type} [DecidableEq κ] [AddCommMonoid A]

def tally (key : α → κ) (w : α → A) (k : κ) (m : Multiset α) : A :=
  (m.map fun a => if key a = k then w a else 0).sum

def indicator (f : α → Bool) (a : α) : Nat := if f a then 1 else 0

variable (key : α → κ) (w : α → A) (k : κ)

@[simp] theorem tally_zero : tally key w k 0 = 0 := rfl

@[simp] theorem tally_add (m n : Multiset α) :
    tally key w k (m + n) = tally key w k m + tally key w k n := by
  simp [tally]

@[simp] theorem tally_cons (a : α) (m : Multiset α) :
    tally key w k (a ::ₘ m) = (if key a = k then w a else 0) + tally key w k m := by
  simp [tally]

@[simp] theorem tally_singleton (a : α) :
    tally key w k {a} = if key a = k then w a else 0 := by
  simp [tally]

variable {key w k}

theorem tally_eq_zero {m : Multiset α} (h : ∀ a ∈ m, key a = k → w a = 0) :
    tally key w k m = 0 := by
  apply Multiset.sum_eq_zero
  intro x hx
  obtain ⟨a, ha, rfl⟩ := Multiset.mem_map.mp hx
  split
  · exact h a ha ‹_›
  · rfl

theorem le_tally {w : α → Nat} {m : Multiset α} {a : α} (ha : a ∈ m) (hk : key a = k) :
    w a ≤ tally key w k m := by
  obtain ⟨n, rfl⟩ := Multiset.exists_cons_of_mem ha
  simp [hk]

theorem tally_indicator_eq_zero {f : α → Bool} {m : Multiset α} :
    tally key (indicator f) k m = 0 ↔ ∀ a ∈ m, key a = k → f a = false := by
  constructor
  · intro h a ha hk
    have hle : indicator f a ≤ tally key (indicator f) k m := le_tally ha hk
    by_contra hf
    simp [indicator, hf, h] at hle
  · intro h
    exact tally_eq_zero fun a ha hk => by simp [indicator, h a ha hk]

end Sirius.Lib
