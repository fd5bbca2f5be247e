import Mathlib.Algebra.BigOperators.Group.List.Basic
import Mathlib.Algebra.Order.Ring.Nat
import Sirius.Lib.Runs
import Sirius.Lib.Slots

/-!
# Admission control

`admission_control` (`src/io/admission_control.cpp`) hands out slots that reserve a part of a budget. A
request waits until it fits, or until there is no slot whose end it could wait for: it then gets the
whole budget if it is larger. Whoever has a slot may move it on, and gives back what it reserves by
destroying it or by moving another slot over it.

The mutex makes each call one step, apart from the wait of `acquire`. In every run the two counters are
those of the slots that are live (`admission_accounted`).
-/

namespace Sirius.Admission

open Lib List

/-- A `slot` object: what it has reserved, unless it is empty. -/
abbrev Slot := Option Nat

structure State where
  inUse : Nat := 0
  activeSlots : Nat := 0
  /-- The sizes of the requests that wait in `acquire`. -/
  waiting : List Nat := []
  slots : List Slot := []
  deriving DecidableEq

inductive Label where
  | acquire (size : Nat)
  /-- A waiting request finds its predicate true. -/
  | goOn (i : Nat)
  /-- A waiting request is told to stop. -/
  | stop (i : Nat)
  | slot (op : SlotOp)

variable (budget : Fin (2 ^ 64))

/-- `_in_use + size <= _budget` in 64 bits. -/
def State.fits (s : State) (size : Nat) : Bool := (s.inUse + size) % 2 ^ 64 ≤ budget

/-- The predicate of the wait. -/
def State.admits (s : State) (size : Nat) : Bool := s.fits budget size || s.activeSlots == 0

/-- The end of `acquire` for a request that is admitted. -/
def State.reserve (s : State) (i size : Nat) : State :=
  let reserved := if s.fits budget size then size else budget
  { inUse := (s.inUse + reserved) % 2 ^ 64
    activeSlots := s.activeSlots + 1
    waiting := s.waiting.eraseIdx i
    slots := s.slots ++ [some reserved] }

/-- `release`, if the slot has something to give back. -/
def State.release (s : State) : Slot → State
  | none => s
  | some reserved => { s with
    inUse := (s.inUse + 2 ^ 64 - reserved) % 2 ^ 64
    activeSlots := s.activeSlots - 1 }

def step (s : State) : Label → Option State
  | .acquire size => some { s with waiting := s.waiting ++ [size] }
  | .goOn i => s.waiting[i]?.bind fun size =>
    if s.admits budget size then some (s.reserve budget i size) else none
  | .stop i => s.waiting[i]?.map fun size =>
    -- the wait returns the predicate
    if s.admits budget size then s.reserve budget i size
    else { s with waiting := s.waiting.eraseIdx i, slots := s.slots ++ [none] }
  | .slot op => (op.apply s.slots).map fun (old, slots) => { s.release old with slots }

/-- The sum that the predicate computes does not wrap. -/
def noWrap (s : State) : Label → Bool
  | .goOn i | .stop i => s.waiting[i]?.all fun size => s.inUse + size < 2 ^ 64
  | _ => true

def State.live (s : State) : List Nat := s.slots.reduceOption

structure Accounted (s : State) : Prop where
  inUse : s.inUse = s.live.sum
  active : s.activeSlots = s.live.length
  le : s.inUse ≤ budget

/-! ## Steps -/

variable {budget} {s s' : State} {size i : Nat}

theorem Accounted.of_perm (h : Accounted budget s) {slots : List Slot} {waiting : List Nat}
    (hperm : slots.reduceOption.Perm s.live) : Accounted budget { s with slots, waiting } :=
  ⟨h.inUse.trans hperm.sum_eq.symm, h.active.trans hperm.length_eq.symm, h.le⟩

theorem Accounted.reserve (h : Accounted budget s) (hwrap : s.inUse + size < 2 ^ 64)
    (hadmits : s.admits budget size = true) (i : Nat) : Accounted budget (s.reserve budget i size) := by
  have hfits : s.fits budget size = true ↔ s.inUse + size ≤ budget := by
    rw [State.fits, Nat.mod_eq_of_lt hwrap, decide_eq_true_iff]
  have hlive : (s.reserve budget i size).live =
      s.live ++ [if s.fits budget size then size else budget] := by
    simp [State.live, State.reserve, reduceOption_append]
  have hle : s.inUse + (if s.fits budget size then size else budget) ≤ budget := by
    split
    · exact hfits.1 ‹_›
    · -- without a slot nothing is in use
      have hzero : s.live = [] := by
        rw [State.admits, Bool.or_eq_true, beq_iff_eq] at hadmits
        exact eq_nil_of_length_eq_zero (h.active ▸ hadmits.resolve_left ‹_›)
      rw [h.inUse, hzero, sum_nil, Nat.zero_add]
  have hinUse : (s.reserve budget i size).inUse =
      s.inUse + (if s.fits budget size then size else budget) :=
    Nat.mod_eq_of_lt (hle.trans_lt budget.isLt)
  refine ⟨?_, ?_, hinUse ▸ hle⟩
  · rw [hinUse, hlive, sum_append, sum_singleton, h.inUse]
  · rw [hlive, length_append, ← h.active]
    rfl

theorem Accounted.release (h : Accounted budget s) {slot : Slot} {slots : List Slot}
    (hperm : s.live.Perm (slot.toList ++ slots.reduceOption)) :
    Accounted budget { s.release slot with slots } := by
  cases slot with
  | none => exact h.of_perm hperm.symm
  | some reserved =>
    have hsum := h.inUse.trans hperm.sum_eq
    have hlength := h.active.trans hperm.length_eq
    have hlt := h.le.trans_lt budget.isLt
    simp only [Option.toList_some, sum_append, sum_singleton, length_append, length_singleton]
      at hsum hlength
    have hinUse : (s.inUse + 2 ^ 64 - reserved) % 2 ^ 64 = slots.reduceOption.sum := by omega
    refine ⟨hinUse, ?_, ?_⟩
    · show s.activeSlots - 1 = slots.reduceOption.length
      omega
    · show (s.inUse + 2 ^ 64 - reserved) % 2 ^ 64 ≤ _
      have := h.le
      omega

theorem Accounted.step {l : Label} (h : Accounted budget s) (hwrap : noWrap s l = true)
    (hstep : step budget s l = some s') : Accounted budget s' := by
  cases l with
  | acquire size =>
    cases hstep
    exact h.of_perm (.refl _)
  | goOn i =>
    obtain ⟨size, hsize, hstep⟩ := Option.bind_eq_some_iff.1 hstep
    split at hstep
    · cases hstep
      exact h.reserve (by simpa [noWrap, hsize] using hwrap) ‹_› i
    · cases hstep
  | stop i =>
    obtain ⟨size, hsize, rfl⟩ := Option.map_eq_some_iff.1 hstep
    split
    · exact h.reserve (by simpa [noWrap, hsize] using hwrap) ‹_› i
    · exact h.of_perm (by simp [State.live, reduceOption_append])
  | slot op =>
    obtain ⟨⟨old, slots⟩, hslots, rfl⟩ := Option.map_eq_some_iff.1 hstep
    exact h.release (SlotOp.perm hslots)

/-- **Accounting.** For every budget and every run, what is in use is what the live slots reserve, and at
most the budget, the slots are counted, and without a live slot no request waits in vain. -/
theorem admission_accounted (budget : Fin (2 ^ 64)) {s : State}
    (hrun : Run (step budget) (fun s l => noWrap s l = true) {} s) :
    s.inUse = s.live.sum ∧ s.inUse ≤ budget ∧ s.activeSlots = s.live.length ∧
      (s.live = [] → ∀ size ∈ s.waiting, s.admits budget size = true) := by
  have h : Accounted budget s :=
    hrun.invariant ⟨rfl, rfl, Nat.zero_le _⟩ fun h hwrap hstep => h.step hwrap hstep
  refine ⟨h.inUse, h.le, h.active, fun hlive size _ => ?_⟩
  rw [State.admits, h.active, hlive, Bool.or_eq_true]
  exact .inr rfl

/-- A request that is larger than the budget waits until the other slot, which was moved, is gone. -/
theorem admission_accounted_oversized : ∃ s : State,
    Run (step 10) (fun s l => noWrap s l = true) {} s ∧ s.slots = [none, some 10] ∧
      s.inUse = s.live.sum ∧ s.inUse ≤ 10 := by
  obtain ⟨s, hrun, hslots⟩ : ∃ s, Run (step 10) (fun s l => noWrap s l = true) {} s ∧
      s.slots = [none, some 10] := by
    apply Run.exists_of_runLabels [.acquire 4, .goOn 0, .acquire 25, .slot (.moveConstruct 0),
      .slot (.destroy 1), .goOn 0]
    decide
  obtain ⟨hinUse, hle, -⟩ := admission_accounted 10 hrun
  exact ⟨s, hrun, hslots, hinUse, hle⟩

end Sirius.Admission
