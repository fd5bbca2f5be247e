import Sirius.Lib.Runs
import Sirius.Lib.Slots

/-!
# The bounded thread pool

`bounded_thread_pool` (`src/include/exec/bounded_thread_pool.hpp`) runs functions on as many threads as
its capacity. `reserve` waits for a slot and `dispatch` moves it into a closure, which gives it back
when it is destroyed, behind the function. The mutex makes each step atomic, and a wait ends at a step
where its predicate holds.

`pool_accounted` is about every run in which `stop` is not requested.
-/

namespace Sirius.BoundedPool

open Lib List

variable {F : Type}

/-- `dispatched` and `done` record the functions that were queued, and those whose closures are gone. -/
structure State (F : Type) where
  active : Int := 0
  interrupted : Bool := false
  slots : List (Option Unit) := []
  workQueue : List F := []
  running : List F := []
  dispatched : List F := []
  done : List F := []
  deriving DecidableEq

inductive Label (F : Type) where
  | reserve
  | slot (op : SlotOp)
  | dispatch (i : Nat) (fn : F)
  /-- A worker takes a closure. -/
  | pop
  /-- A function has returned or thrown, and its closure is destroyed. -/
  | finish (i : Nat)
  | interrupt
  | resume

def State.releaseSlot (s : State F) : State F := { s with active := s.active - 1 }

def step (capacity : Nat) (s : State F) : Label F → Option (State F)
  | .reserve =>
    if s.interrupted then some { s with slots := s.slots ++ [none] }
    else if s.active < capacity then
      some { s with active := s.active + 1, slots := s.slots ++ [some ()] }
    else none
  | .slot op => (op.apply s.slots).map fun (old, slots) =>
    { old.elim s fun _ => s.releaseSlot with slots }
  | .dispatch i fn => s.slots[i]?.map fun slot =>
    if slot.isNone then s
    else { s with
      slots := s.slots.set i none
      workQueue := s.workQueue ++ [fn], dispatched := s.dispatched ++ [fn] }
  | .pop =>
    match s.workQueue with
    | fn :: workQueue =>
      if s.running.length < capacity then some { s with workQueue, running := s.running ++ [fn] }
      else none
    | [] => none
  | .finish i => s.running[i]?.map fun fn =>
    { s.releaseSlot with running := s.running.eraseIdx i, done := s.done ++ [fn] }
  | .interrupt => some { s with interrupted := true }
  | .resume => some { s with interrupted := false }

/-- The predicate of the wait in `wait_all`. -/
def State.idle (s : State F) : Bool := s.active == 0

def Label.isWorker : Label F → Bool
  | .pop | .finish _ => true
  | _ => false

structure Accounted (capacity : Nat) (s : State F) : Prop where
  active : s.active = s.slots.reduceOption.length + s.workQueue.length + s.running.length
  le : s.active ≤ capacity
  once : s.dispatched.Perm (s.done ++ (s.running ++ s.workQueue))

variable {capacity : Nat} {s s' : State F} {l : Label F}

theorem Accounted.step (h : Accounted capacity s) (hstep : step capacity s l = some s') :
    Accounted capacity s' := by
  obtain ⟨hactive, hle, honce⟩ := h
  cases l with
  | reserve =>
    simp only [BoundedPool.step] at hstep
    split at hstep
    · cases hstep
      exact ⟨by simpa [reduceOption_append] using hactive, hle, honce⟩
    · split at hstep <;> cases hstep
      refine ⟨?_, Int.add_one_le_of_lt ‹_›, honce⟩
      simp [reduceOption_append, hactive]
      omega
  | slot op =>
    obtain ⟨⟨old, slots⟩, hslots, rfl⟩ := Option.map_eq_some_iff.1 hstep
    have hlength := (SlotOp.perm hslots).length_eq
    cases old with
    | none => exact ⟨by simpa [hlength] using hactive, hle, honce⟩
    | some _ =>
      refine ⟨?_, (Int.sub_le_self _ (by decide)).trans hle, honce⟩
      simp [State.releaseSlot, hactive, hlength]
      omega
  | dispatch i fn =>
    obtain ⟨slot, hslot, rfl⟩ := Option.map_eq_some_iff.1 hstep
    cases slot with
    | none => exact ⟨hactive, hle, honce⟩
    | some _ =>
      have hbefore := (reduceOption_perm_eraseIdx hslot).length_eq
      have hafter := (reduceOption_set_perm hslot none).length_eq
      refine ⟨?_, hle, ?_⟩
      · simp [hbefore, hafter] at hactive ⊢
        omega
      · simpa using honce.append_right [fn]
  | pop =>
    simp only [BoundedPool.step] at hstep
    split at hstep
    next hqueue =>
      split at hstep <;> cases hstep
      rw [hqueue] at hactive honce
      refine ⟨?_, hle, by simpa using honce⟩
      simp at hactive ⊢
      omega
    · cases hstep
  | finish i =>
    obtain ⟨fn, hfn, rfl⟩ := Option.map_eq_some_iff.1 hstep
    obtain ⟨hi, rfl⟩ := List.getElem?_eq_some_iff.1 hfn
    refine ⟨?_, (Int.sub_le_self _ (by decide)).trans hle, ?_⟩
    · simp [State.releaseSlot, hactive, length_eraseIdx, hi]
      omega
    · refine honce.trans ?_
      rw [append_assoc]
      exact ((getElem_cons_eraseIdx_perm hi).symm.append_right _).append_left _
  | interrupt | resume =>
    cases hstep
    exact ⟨hactive, hle, honce⟩

/-- Only a function that runs gets done. -/
theorem done_of_step (hstep : step capacity s l = some s') :
    s'.done = s.done ∨ ∃ i fn, l = .finish i ∧ s.running[i]? = some fn ∧ s'.done = s.done ++ [fn] := by
  cases l with
  | finish i =>
    obtain ⟨fn, hfn, rfl⟩ := Option.map_eq_some_iff.1 hstep
    exact .inr ⟨i, fn, rfl, hfn, rfl⟩
  | slot op =>
    obtain ⟨⟨old, slots⟩, -, rfl⟩ := Option.map_eq_some_iff.1 hstep
    cases old <;> exact .inl rfl
  | dispatch i fn =>
    obtain ⟨slot, -, rfl⟩ := Option.map_eq_some_iff.1 hstep
    cases slot <;> exact .inl rfl
  | reserve | pop | interrupt | resume => grind [step]

/-- The workers bring all functions to an end. -/
theorem Accounted.exists_done (h : Accounted capacity s) :
    ∃ s', Run (BoundedPool.step capacity) (fun _ l => l.isWorker = true) s s' ∧
      (Accounted capacity s' ∧ s'.dispatched = s.dispatched) ∧
      s'.workQueue = [] ∧ s'.running = [] := by
  refine Run.exists_of_measure (fun a => Accounted capacity a ∧ a.dispatched = s.dispatched)
    (fun a => a.workQueue = [] ∧ a.running = [])
    (fun a => 2 * a.workQueue.length + a.running.length) ?_ ⟨h, rfl⟩
  rintro a ⟨ha, hdispatched⟩
  cases hrunning : a.running with
  | cons fn running =>
    have hstep : BoundedPool.step capacity a (.finish 0) =
        some { a.releaseSlot with running, done := a.done ++ [fn] } := by
      simp [BoundedPool.step, hrunning]
    exact .inr ⟨_, .single _ rfl hstep, ⟨ha.step hstep, hdispatched⟩, by simp [State.releaseSlot]⟩
  | nil =>
    cases hqueue : a.workQueue with
    | nil => exact .inl ⟨rfl, rfl⟩
    | cons fn workQueue =>
      have hcapacity : 0 < capacity := by
        have := ha.active
        have := ha.le
        simp [hqueue] at *
        omega
      have hstep : BoundedPool.step capacity a .pop = some { a with workQueue, running := [fn] } := by
        simp [BoundedPool.step, hqueue, hrunning, hcapacity]
      exact .inr ⟨_, .single _ rfl hstep, ⟨ha.step hstep, hdispatched⟩, by simp; omega⟩

/-- **Slot accounting.** For every capacity and every run, `active_` counts the live slots and the
functions that are queued or running. Every dispatched function is queued, running or done, once, and
gets done only when it has run. The workers can bring them all to an end, and when `wait_all` returns,
they are done. -/
theorem pool_accounted (capacity : Nat) {s : State F}
    (hrun : Run (BoundedPool.step capacity) (fun _ _ => True) {} s) :
    s.active = s.slots.reduceOption.length + s.workQueue.length + s.running.length ∧
      s.active ≤ capacity ∧
      s.dispatched.Perm (s.done ++ (s.running ++ s.workQueue)) ∧
      (∀ l s', BoundedPool.step capacity s l = some s' →
        s'.done = s.done ∨ ∃ i fn, l = .finish i ∧ s.running[i]? = some fn ∧ s'.done = s.done ++ [fn]) ∧
      (∃ s', Run (BoundedPool.step capacity) (fun _ l => l.isWorker = true) s s' ∧
        s'.dispatched = s.dispatched ∧ s'.dispatched.Perm s'.done) ∧
      (s.idle = true → s.dispatched.Perm s.done) := by
  have h : Accounted capacity s :=
    hrun.invariant ⟨rfl, Int.natCast_nonneg _, .refl _⟩ fun h _ hstep => h.step hstep
  refine ⟨h.active, h.le, h.once, fun _ _ => done_of_step, ?_, fun hidle => ?_⟩
  · obtain ⟨s', hworkers, ⟨h', hdispatched⟩, hqueue, hrunning⟩ := h.exists_done
    exact ⟨s', hworkers, hdispatched, by simpa [hqueue, hrunning] using h'.once⟩
  · have hactive := h.active
    rw [eq_of_beq hidle] at hactive
    have hrunning : s.running = [] := eq_nil_of_length_eq_zero (by omega)
    have hqueue : s.workQueue = [] := eq_nil_of_length_eq_zero (by omega)
    simpa [hqueue, hrunning] using h.once

/-- Of two slots one is moved and dispatched. The other one is dropped, so that `wait_all` returns
behind the function. -/
theorem pool_accounted_dispatched : ∃ s : State Nat,
    Run (BoundedPool.step 2) (fun _ _ => True) {} s ∧ s.dispatched = [7] ∧ s.idle = true ∧
      s.dispatched.Perm s.done := by
  obtain ⟨s, hrun, hdispatched, hidle⟩ : ∃ s : State Nat,
      Run (BoundedPool.step 2) (fun _ _ => true = true) {} s ∧ s.dispatched = [7] ∧ s.idle = true := by
    apply Run.exists_of_runLabels [.reserve, .reserve, .slot (.moveConstruct 0), .dispatch 2 7,
      .interrupt, .slot (.destroy 1), .pop, .finish 0]
    decide
  have hrun : Run (BoundedPool.step 2) (fun _ _ => True) {} s := hrun.mono fun _ _ _ => trivial
  exact ⟨s, hrun, hdispatched, hidle, (pool_accounted 2 hrun).2.2.2.2.2 hidle⟩

end Sirius.BoundedPool
