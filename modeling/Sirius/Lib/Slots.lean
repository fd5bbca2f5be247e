import Mathlib.Data.List.Perm.Basic
import Mathlib.Data.List.ReduceOption

/-!
# Slots

Move-only objects, each of which holds something or is empty. A move leaves its source empty. What an
object holds when it is destroyed, or when another one is moved over it, is given back.
-/

namespace Sirius.Lib

open List

inductive SlotOp where
  | moveConstruct (source : Nat)
  | moveAssign (target source : Nat)
  | destroy (i : Nat)

variable {α : Type*} {slots slots' : List (Option α)} {slot : Option α} {i : Nat}

/-- What is given back, and the objects afterwards. -/
def SlotOp.apply (slots : List (Option α)) : SlotOp → Option (Option α × List (Option α))
  | moveConstruct source => slots[source]?.map fun slot => (none, slots.set source none ++ [slot])
  | moveAssign target source => slots[target]?.bind fun old => slots[source]?.map fun slot =>
    if target = source then (none, slots) else (old, (slots.set target slot).set source none)
  | destroy i => slots[i]?.map fun slot => (slot, slots.eraseIdx i)

theorem reduceOption_cons (slot : Option α) (slots : List (Option α)) :
    (slot :: slots).reduceOption = slot.toList ++ slots.reduceOption := by
  cases slot <;> rfl

theorem reduceOption_perm_eraseIdx (h : slots[i]? = some slot) :
    slots.reduceOption.Perm (slot.toList ++ (slots.eraseIdx i).reduceOption) := by
  obtain ⟨hi, rfl⟩ := List.getElem?_eq_some_iff.1 h
  rw [← reduceOption_cons]
  exact (getElem_cons_eraseIdx_perm hi).symm.filterMap id

theorem reduceOption_set_perm (h : slots[i]? = some slot) (new : Option α) :
    (slots.set i new).reduceOption.Perm (new.toList ++ (slots.eraseIdx i).reduceOption) := by
  rw [← reduceOption_cons]
  exact (set_perm_cons_eraseIdx (List.getElem?_eq_some_iff.1 h).1 new).filterMap id

/-- Nothing gets lost, and nothing is held twice. -/
theorem SlotOp.perm {op : SlotOp} (h : op.apply slots = some (slot, slots')) :
    slots.reduceOption.Perm (slot.toList ++ slots'.reduceOption) := by
  cases op with
  | moveConstruct source =>
    obtain ⟨moved, hmoved, heq⟩ := Option.map_eq_some_iff.1 h
    cases heq
    rw [reduceOption_append, reduceOption_cons, reduceOption_nil, append_nil]
    exact (reduceOption_perm_eraseIdx hmoved).trans
      (perm_append_comm.trans ((reduceOption_set_perm hmoved none).symm.append_right _))
  | moveAssign target source =>
    obtain ⟨old, hold, h⟩ := Option.bind_eq_some_iff.1 h
    obtain ⟨moved, hmoved, heq⟩ := Option.map_eq_some_iff.1 h
    split at heq <;> cases heq
    · exact .refl _
    · -- the target holds what the source held
      refine (reduceOption_perm_eraseIdx hold).trans (Perm.append_left _ ?_)
      have hsource : (slots.set target moved)[source]? = some moved := by
        rw [getElem?_set_ne ‹_›, hmoved]
      refine Perm.trans ?_ (reduceOption_set_perm hsource none).symm
      exact (perm_append_left_iff _).1
        ((reduceOption_set_perm hold moved).symm.trans (reduceOption_perm_eraseIdx hsource))
  | destroy i =>
    obtain ⟨held, hheld, heq⟩ := Option.map_eq_some_iff.1 h
    cases heq
    exact reduceOption_perm_eraseIdx hheld

end Sirius.Lib
