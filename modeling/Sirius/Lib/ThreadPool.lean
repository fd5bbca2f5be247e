import Mathlib.Algebra.BigOperators.Group.Multiset.Basic
import Mathlib.Algebra.Order.Ring.Nat

/-!
# Threads as stacks of pending operations

A thread is the list of operations it still has to perform, next one first; a pool is a list of
threads. One step takes the head operation of one thread, puts a list of operations in its place
and may start new threads. What such a step does to the multiset of all pending operations is all
that most invariants of a concurrent program need.
-/

namespace Sirius.Lib

open List

universe u

variable {α : Type u}

def pending (ts : List (List α)) : Multiset α := (ts.flatten : List α)

@[simp] theorem pending_nil : pending ([] : List (List α)) = 0 := rfl

@[simp] theorem pending_cons (t : List α) (ts : List (List α)) :
    pending (t :: ts) = (t : Multiset α) + pending ts := by
  simp [pending]

@[simp] theorem pending_append (ts ts' : List (List α)) :
    pending (ts ++ ts') = pending ts + pending ts' := by
  simp [pending]

theorem pending_eq_zero_iff {ts : List (List α)} :
    pending ts = 0 ↔ ∀ t ∈ ts, t = [] := by
  simp [pending]

theorem mem_pending_of_mem {ts : List (List α)} {t : List α} (ht : t ∈ ts) {a : α} (ha : a ∈ t) :
    a ∈ pending ts := by
  simpa [pending] using ⟨t, ht, ha⟩

/-- Put stack `t` back at position `i` and start the threads `new`. -/
def resume (ts : List (List α)) (i : Nat) (t : List α) (new : List (List α)) : List (List α) :=
  ts.set i t ++ new

/-- **One step of a thread, seen from the pool.** Taking operation `a` off the thread at position
`i` leaves the same rest `R`, whatever is put in its place. -/
theorem pending_resume {ts : List (List α)} {i : Nat} {a : α} {rest : List α}
    (h : ts[i]? = some (a :: rest)) :
    ∃ R : Multiset α, pending ts = a ::ₘ R ∧ (rest : Multiset α) ≤ R ∧
      ∀ add new, pending (resume ts i (add ++ rest) new) =
        (add : Multiset α) + pending new + R := by
  induction ts generalizing i with
  | nil => simp at h
  | cons t ts ih =>
    cases i with
    | zero =>
      obtain rfl : t = a :: rest := by simpa using h
      refine ⟨(rest : Multiset α) + pending ts, ?_, Multiset.le_add_right _ _, ?_⟩
      · rw [pending_cons, ← Multiset.cons_coe, Multiset.cons_add]
      · intro add new
        simp only [resume, set_cons_zero, cons_append, pending_cons, pending_append,
          ← Multiset.coe_add]
        ac_rfl
    | succ i =>
      obtain ⟨R, hR, hle, hadd⟩ := ih (i := i) (by simpa using h)
      refine ⟨(t : Multiset α) + R, ?_, hle.trans (Multiset.le_add_left _ _), ?_⟩
      · rw [pending_cons, hR, Multiset.add_cons]
      · intro add new
        have := hadd add new
        simp only [resume, set_cons_succ, cons_append, pending_cons] at this ⊢
        rw [this]
        ac_rfl

/-! ## Pools of single values -/

section Sum

variable (f : α → Nat) {l : List α} {i : Nat} {a : α}

theorem sum_map_eraseIdx (h : l[i]? = some a) :
    (l.map f).sum = ((l.eraseIdx i).map f).sum + f a := by
  obtain ⟨hlt, rfl⟩ := List.getElem?_eq_some_iff.1 h
  rw [← ((List.getElem_cons_eraseIdx_perm hlt).map f).sum_nat, List.map_cons, List.sum_cons,
    Nat.add_comm]

theorem sum_map_set (h : l[i]? = some a) (b : α) :
    ((l.set i b).map f).sum = ((l.eraseIdx i).map f).sum + f b := by
  obtain ⟨hlt, -⟩ := List.getElem?_eq_some_iff.1 h
  rw [sum_map_eraseIdx f (List.getElem?_set_self hlt), List.eraseIdx_set_eq]

end Sum

end Sirius.Lib
