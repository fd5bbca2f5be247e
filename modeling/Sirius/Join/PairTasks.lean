import Mathlib.Algebra.Order.Group.Multiset
import Mathlib.Algebra.Order.Ring.Nat
import Sirius.Lib.Fallible

/-!
# The tasks of a join

`get_next_task_input_data` of the hash join and of the nested-loop join hand out the pairs of a
left and a right batch of the same partition. A call counts through the grid
partition × left × right until it reaches its own index. Together the calls hand out every pair
once (`pairTasks_eq_grid`).
-/

namespace Sirius.Join

open List

variable {A B : Type}

/-! ## The loops -/

def walkRight (batchIndex : Nat) (left : A) (counter : Nat) : List B → Nat ⊕ (A × B)
  | [] => .inl counter
  | right :: rights =>
    if counter = batchIndex then .inr (left, right)
    else walkRight batchIndex left (counter + 1) rights

def walkLeft (batchIndex : Nat) (rights : List B) (counter : Nat) : List A → Nat ⊕ (A × B)
  | [] => .inl counter
  | left :: lefts =>
    match walkRight batchIndex left counter rights with
    | .inr pair => .inr pair
    | .inl counter => walkLeft batchIndex rights counter lefts

def walkPartitions (batchIndex : Nat) (counter : Nat) : List (List A × List B) → Nat ⊕ (A × B)
  | [] => .inl counter
  | (lefts, rights) :: parts =>
    match walkLeft batchIndex rights counter lefts with
    | .inr pair => .inr pair
    | .inl counter => walkPartitions batchIndex counter parts

def numPairs (parts : List (List A × List B)) : Nat :=
  (parts.map fun x => x.1.length * x.2.length).sum

/-- One call of `get_next_task_input_data`, with `current_partition_index` before and after it. -/
def getNextPair (parts : List (List A × List B)) (current : Nat) : Option ((A × B) × Nat) :=
  if numPairs parts ≤ current then none
  else
    match walkPartitions current 0 parts with
    | .inr pair => some (pair, current + 1)
    | .inl _ => none

def handOut (parts : List (List A × List B)) : (calls current : Nat) → List (A × B)
  | 0, _ => []
  | calls + 1, current =>
    match getNextPair parts current with
    | none => []
    | some (pair, next) => pair :: handOut parts calls next

def pairTasks (parts : List (List A × List B)) : List (A × B) :=
  handOut parts (numPairs parts + 1) 0

/-! ## The grid -/

def grid (parts : List (List A × List B)) : List (A × B) :=
  parts.flatMap fun x => x.1.flatMap fun left => x.2.map fun right => (left, right)

def locate {C : Type} (batchIndex : Nat) (counter : Nat) : List C → Nat ⊕ C
  | [] => .inl counter
  | x :: xs => if counter = batchIndex then .inr x else locate batchIndex (counter + 1) xs

variable {C : Type} (batchIndex counter : Nat)

theorem locate_append (xs ys : List C) :
    locate batchIndex counter (xs ++ ys) =
      match locate batchIndex counter xs with
      | .inr x => .inr x
      | .inl counter => locate batchIndex counter ys := by
  induction xs generalizing counter with
  | nil => rfl
  | cons x xs ih =>
    rw [cons_append, locate, locate]
    split
    · rfl
    · exact ih _

theorem locate_of_le {batchIndex counter : Nat} (h : counter ≤ batchIndex) (xs : List C) :
    locate batchIndex counter xs =
      match xs[batchIndex - counter]? with
      | some x => .inr x
      | none => .inl (counter + xs.length) := by
  induction xs generalizing counter with
  | nil => simp [locate]
  | cons x xs ih =>
    rw [locate]
    split
    next heq =>
      simp [heq]
    next hne =>
      obtain ⟨k, rfl⟩ : ∃ k, batchIndex = counter + 1 + k := ⟨batchIndex - (counter + 1), by omega⟩
      rw [ih (by omega)]
      have hleft : counter + 1 + k - (counter + 1) = k := by omega
      have hright : counter + 1 + k - counter = k + 1 := by omega
      rw [hleft, hright, getElem?_cons_succ, length_cons]
      split
      · rfl
      · congr 1
        omega

theorem walkRight_eq (left : A) (rights : List B) :
    walkRight batchIndex left counter rights =
      locate batchIndex counter (rights.map fun right => (left, right)) := by
  induction rights generalizing counter with
  | nil => rfl
  | cons right rights ih =>
    rw [walkRight, map_cons, locate, ih]

theorem walkLeft_eq (lefts : List A) (rights : List B) :
    walkLeft batchIndex rights counter lefts =
      locate batchIndex counter
        (lefts.flatMap fun left => rights.map fun right => (left, right)) := by
  induction lefts generalizing counter with
  | nil => rfl
  | cons left lefts ih =>
    rw [walkLeft, flatMap_cons, locate_append, walkRight_eq]
    split <;> simp_all

theorem walkPartitions_eq (parts : List (List A × List B)) :
    walkPartitions batchIndex counter parts = locate batchIndex counter (grid parts) := by
  induction parts generalizing counter with
  | nil => rfl
  | cons part parts ih =>
    rw [walkPartitions, grid, flatMap_cons, locate_append, walkLeft_eq]
    split
    · simp_all
    next heq =>
      simp only [heq]
      exact ih _

variable (parts : List (List A × List B))

theorem length_grid : (grid parts).length = numPairs parts := by
  induction parts with
  | nil => rfl
  | cons part parts ih =>
    rw [grid, flatMap_cons, length_append, numPairs, map_cons, sum_cons]
    rw [grid, numPairs] at ih
    rw [ih]
    congr 1
    simp [length_flatMap]

/-- A call returns the pair at its index of the grid. -/
theorem getNextPair_eq (current : Nat) :
    getNextPair parts current = (grid parts)[current]?.map fun pair => (pair, current + 1) := by
  rw [getNextPair, walkPartitions_eq, locate_of_le (Nat.zero_le _), Nat.sub_zero, ← length_grid]
  split
  · rw [getElem?_eq_none ‹_›]
    rfl
  · cases (grid parts)[current]? <;> rfl

theorem handOut_eq (calls current : Nat) (h : numPairs parts < current + calls) :
    handOut parts calls current = (grid parts).drop current := by
  induction calls generalizing current with
  | zero =>
    rw [handOut, drop_eq_nil_of_le]
    rw [length_grid]
    omega
  | succ calls ih =>
    rw [handOut, getNextPair_eq]
    by_cases hlt : current < (grid parts).length
    · rw [getElem?_eq_getElem hlt, drop_eq_getElem_cons hlt]
      simp only [Option.map_some]
      rw [ih (current + 1) (by omega)]
    · rw [getElem?_eq_none (by omega), drop_eq_nil_of_le (by omega)]
      rfl

/-- **Every pair of batches of a partition is handed out once.** -/
theorem pairTasks_eq_grid : pairTasks parts = grid parts := by
  rw [pairTasks, handOut_eq parts _ 0 (by omega), drop_zero]

/-! ## Running the tasks -/

def runTasks {O : Type} (execute : A → B → Except String (Multiset O)) (tasks : List (A × B)) :
    Except String (Multiset O) := do
  let outputs ← tasks.mapM fun task => execute task.1 task.2
  return outputs.sum

theorem runTasks_ok {O : Type} {execute : A → B → Except String (Multiset O)}
    {e : A → B → Multiset O} {tasks : List (A × B)}
    (h : ∀ task ∈ tasks, execute task.1 task.2 = .ok (e task.1 task.2)) :
    runTasks execute tasks = .ok (tasks.map fun task => e task.1 task.2).sum := by
  rw [runTasks, Lib.mapM_eq_ok h]
  rfl

theorem mem_grid {parts : List (List A × List B)} {task : A × B} (h : task ∈ grid parts) :
    ∃ part ∈ parts, task.1 ∈ part.1 ∧ task.2 ∈ part.2 := by
  simp only [grid, mem_flatMap, mem_map] at h
  obtain ⟨part, hpart, left, hleft, right, hright, rfl⟩ := h
  exact ⟨part, hpart, hleft, hright⟩

end Sirius.Join
