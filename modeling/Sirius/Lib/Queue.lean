import Mathlib.Data.List.Perm.Basic

/-!
# Queues that can be searched

A queue is a list with its oldest element first. `popIf` takes out the first element that satisfies
a predicate, from either end.
-/

namespace Sirius.Lib

variable {α : Type}

/-- The first element that satisfies `p`, and the other elements. -/
def popFirst (p : α → Bool) : List α → Option (α × List α)
  | [] => none
  | a :: l => if p a then some (a, l) else (popFirst p l).map fun r => (r.1, a :: r.2)

/-- The oldest (`frontToBack`) or the newest element that satisfies `p`. -/
def popIf (p : α → Bool) (frontToBack : Bool) (queue : List α) : Option (α × List α) :=
  if frontToBack then popFirst p queue
  else (popFirst p queue.reverse).map fun r => (r.1, r.2.reverse)

variable {p : α → Bool} {l rest : List α} {a : α} {frontToBack : Bool}

theorem popFirst_eq_some (h : popFirst p l = some (a, rest)) : p a ∧ l.Perm (a :: rest) := by
  induction l generalizing rest with
  | nil => cases h
  | cons b l ih =>
    rw [popFirst] at h
    split at h
    · cases h
      exact ⟨‹_›, .refl _⟩
    · obtain ⟨⟨x, r⟩, hr, heq⟩ := Option.map_eq_some_iff.1 h
      cases heq
      obtain ⟨hp, hperm⟩ := ih hr
      exact ⟨hp, (hperm.cons b).trans (.swap x b r)⟩

theorem popFirst_eq_none : popFirst p l = none ↔ ∀ a ∈ l, p a = false := by
  induction l with
  | nil => simp [popFirst]
  | cons b l ih =>
    rw [popFirst]
    by_cases hb : p b <;> simp [hb, ih]

/-- The element that is taken satisfies the predicate, and nothing else leaves the queue. -/
theorem popIf_eq_some (h : popIf p frontToBack l = some (a, rest)) :
    p a ∧ l.Perm (a :: rest) := by
  rw [popIf] at h
  split at h
  · exact popFirst_eq_some h
  · obtain ⟨⟨x, r⟩, hr, heq⟩ := Option.map_eq_some_iff.1 h
    cases heq
    obtain ⟨hp, hperm⟩ := popFirst_eq_some hr
    exact ⟨hp, (l.reverse_perm.symm.trans hperm).trans (r.reverse_perm.symm.cons x)⟩

theorem popIf_eq_none : popIf p frontToBack l = none ↔ ∀ a ∈ l, p a = false := by
  rw [popIf]
  split
  · exact popFirst_eq_none
  · rw [Option.map_eq_none_iff, popFirst_eq_none]
    simp

end Sirius.Lib
