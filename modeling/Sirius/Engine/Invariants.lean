import Sirius.Lib.Tally
import Sirius.Engine.Effects

/-!
# Invariants of every run

What holds in every reachable state of the engine, whatever the interleaving: the task counters
count the tasks in flight, the status mutex of a pipeline is held by at most one thread, and every
operation runs on a pipeline of its kind. An invariant that ties the memory of each pipeline to a
tally of its pending operations is preserved by a step as soon as it is by the effects on that
pipeline (`local_step`).
-/

namespace Sirius.Engine

open Lib Multiset

variable {P S B : Type} [DecidableEq P] {g : Graph P S B}

/-- Sum of the weights of the pending operations of pipeline `p`. -/
abbrev pendingOf {A : Type} [AddCommMonoid A] (w : Op P B → A) (p : P)
    (ops : Multiset (Op P B)) : A :=
  tally Op.pipeline w p ops

abbrev tasksOf (p : P) (ops : Multiset (Op P B)) : Nat := pendingOf (indicator Op.isTask) p ops

abbrev lockersOf (p : P) (ops : Multiset (Op P B)) : Nat := pendingOf (indicator Op.holdsLock) p ops

/-! ## From effects to steps -/

variable {pipes : P → PipeState S B} {p : P} {l : Label P S B} {rem add : Multiset (Op P B)} {A : Type}
  {w : Op P B → A} {st st' : State P S B}

omit [DecidableEq P] in
theorem ControlEffect.rem_passive (h : ControlEffect g pipes p l rem add) :
    ∀ o ∈ rem, o.isPassive = true := by
  cases h with
  | flow i op add hop => simp [Op.isPassive, hop]
  | _ => simp [Op.isPassive, Op.isControl]

omit [DecidableEq P] in
theorem ControlEffect.add_passive (h : ControlEffect g pipes p l rem add) :
    ∀ o ∈ add, o.isPassive = true := by
  cases h with
  | flow i op add hop _ _ _ _ hadd _ | postTask i add _ hadd _ => exact hadd
  | dispatch hcpu =>
    simp only [mem_singleton, forall_eq, Graph.dispatch]
    split <;> simp_all [Op.isPassive, Op.isControl]
  | _ => simp [Op.isPassive, Op.isControl]

theorem Effect.tally_other [AddCommMonoid A] (hw : ∀ op : Op P B, op.isPassive = true → w op = 0)
    {q : P} {ps : PipeState S B} (h : Effect g pipes p l ps rem add) (hq : p ≠ q) :
    pendingOf w q rem = pendingOf w q add := by
  cases h with
  | control h =>
    have hzero : ∀ m : Multiset (Op P B), (∀ o ∈ m, o.isPassive = true) → pendingOf w q m = 0 :=
      fun m hm => tally_eq_zero fun o ho _ => hw o (hm o ho)
    simp only [hzero _ h.rem_passive, hzero _ h.add_passive]
  | claimPartition i batch batches inputs add _ _ hadd =>
    rcases hadd with rfl | rfl <;> simp [Op.pipeline, hq]
  | destroy i batches after => cases after <;> simp [After.ops, Op.pipeline, hq]
  | push => rfl
  | _ => simp [Op.pipeline, hq]

/-- **A local invariant is preserved by a step** when the effects on each pipeline preserve it. -/
theorem local_step [AddCommMonoid A] (hw : ∀ op : Op P B, op.isPassive = true → w op = 0)
    {J : P → PipeState S B → A → Prop} (h : step g st l = some st')
    (heff : ∀ p ps rem add R, Changes st st' l p ps rem add R → Effect g st.pipes p l ps rem add →
      J p (st.pipes p) (pendingOf w p rem + pendingOf w p R) →
      J p ps (pendingOf w p add + pendingOf w p R))
    (hJ : ∀ p, J p (st.pipes p) (pendingOf w p (pending st.threads))) :
    ∀ p, J p (st'.pipes p) (pendingOf w p (pending st'.threads)) := by
  obtain ⟨p, ps, rem, add, R, hch, he⟩ := step_effect h
  intro q
  have hq := hJ q
  rw [hch.before, pendingOf, tally_add] at hq
  rw [hch.after, pendingOf, tally_add, hch.pipes]
  by_cases hpq : p = q
  · subst hpq
    rw [Function.update_self]
    exact heff p ps rem add R hch he hq
  · rw [Function.update_of_ne (Ne.symm hpq)]
    have hsame : tally Op.pipeline w q rem = tally Op.pipeline w q add := he.tally_other hw hpq
    rwa [← hsame]

theorem memory_step {J : P → PipeState S B → Prop} (h : step g st l = some st')
    (heff : ∀ p ps rem add R, Changes st st' l p ps rem add R → Effect g st.pipes p l ps rem add →
      J p (st.pipes p) → J p ps)
    (hJ : ∀ p, J p (st.pipes p)) : ∀ p, J p (st'.pipes p) := by
  obtain ⟨p, ps, rem, add, R, hch, he⟩ := step_effect h
  intro q
  rw [hch.pipes]
  by_cases hpq : q = p
  · subst hpq
    rw [Function.update_self]
    exact heff q ps rem add R hch he (hJ q)
  · rw [Function.update_of_ne hpq]
    exact hJ q

/-! ## Counters and mutex -/

/-- `tasks_created - tasks_completed` is the number of tasks in flight. -/
def Balanced (ps : PipeState S B) (tasks : Nat) : Prop :=
  ps.tasksCreated = ps.tasksCompleted + tasks

/-- The status mutex is held by exactly one thread while it is locked, else by none. -/
def Mutex (ps : PipeState S B) (lockers : Nat) : Prop :=
  lockers = ps.locked.toNat

omit [DecidableEq P] in
theorem isTask_of_isPassive (op : Op P B) (h : op.isPassive = true) :
    indicator Op.isTask op = 0 := by
  cases op <;> simp_all [Op.isPassive, Op.isControl, indicator, Op.isTask]

omit [DecidableEq P] in
theorem holdsLock_of_isPassive (op : Op P B) (h : op.isPassive = true) :
    indicator Op.holdsLock op = 0 := by
  cases op <;> simp_all [Op.isPassive, Op.isControl, indicator, Op.holdsLock]

/-- Weights that do not see passive operations do not see control effects. -/
theorem ControlEffect.tally_eq [AddCommMonoid A]
    (hw : ∀ op : Op P B, op.isPassive = true → w op = 0) (h : ControlEffect g pipes p l rem add)
    (q : P) : pendingOf w q rem = pendingOf w q add := by
  have hzero : ∀ m : Multiset (Op P B), (∀ o ∈ m, o.isPassive = true) → pendingOf w q m = 0 :=
    fun m hm => tally_eq_zero fun o ho _ => hw o (hm o ho)
  rw [hzero _ h.rem_passive, hzero _ h.add_passive]

section Effects

variable {pipes : P → PipeState S B} {p : P} {l : Label P S B} {ps : PipeState S B}
  {rem add : Multiset (Op P B)} {k : Nat}

theorem Effect.balanced (h : Effect g pipes p l ps rem add)
    (hk : Balanced (pipes p) (tasksOf p rem + k)) : Balanced ps (tasksOf p add + k) := by
  unfold Balanced at hk ⊢
  cases h with
  | control h => simpa only [h.tally_eq isTask_of_isPassive p] using hk
  | claimPartition i batch batches inputs add _ _ hadd =>
    rcases hadd with rfl | rfl <;>
      simp [PipeState.created, Op.pipeline, indicator, Op.isTask] at hk ⊢ <;> omega
  | destroy i batches after =>
    cases after <;> (simp [After.ops, Op.pipeline, indicator, Op.isTask] at hk ⊢; omega)
  | push => exact hk
  | _ =>
    simp [PipeState.created, PipeState.lock, PipeState.unlock, Op.pipeline, indicator,
      Op.isTask] at hk ⊢
    omega

theorem Effect.mutex (h : Effect g pipes p l ps rem add)
    (hk : Mutex (pipes p) (lockersOf p rem + k)) : Mutex ps (lockersOf p add + k) := by
  unfold Mutex at hk ⊢
  cases h with
  | control h => simpa only [h.tally_eq holdsLock_of_isPassive p] using hk
  | claimPartition i batch batches inputs add _ _ hadd =>
    rcases hadd with rfl | rfl <;>
      simpa [PipeState.created, Op.pipeline, indicator, Op.holdsLock] using hk
  | destroy i batches after =>
    cases after <;> simpa [After.ops, Op.pipeline, indicator, Op.holdsLock] using hk
  | push => exact hk
  | _ =>
    simp_all [PipeState.created, PipeState.lock, PipeState.unlock, Op.pipeline, indicator,
      Op.holdsLock] <;> (have hle := Bool.toNat_le (pipes p).locked; omega)

omit [DecidableEq P] in
theorem Effect.kinds (h : Effect g pipes p l ps rem add) (hrem : ∀ op ∈ rem, op.KindOk g) :
    ∀ op ∈ add, op.KindOk g := by
  cases h with
  | control h =>
    cases h with
    | flow i op add _ _ _ _ _ _ hkind => exact hkind (hrem op (by simp))
    | postTask i add _ _ hkind => exact hkind
    | dispatch hcpu =>
      simp only [mem_singleton, forall_eq, Graph.dispatch]
      split <;> simp_all [Op.KindOk]
    | _ => simp [Op.KindOk]
  | destroy i batches after => cases after <;> simp [After.ops, Op.KindOk]
  | claimPartition i batch batches inputs add _ _ hadd =>
    rcases hadd with rfl | rfl <;> simp_all [Op.KindOk]
  | _ => simp_all [Op.KindOk]

end Effects

/-! ## In every reachable state -/

theorem balanced_step (h : step g st l = some st')
    (hb : ∀ p, Balanced (st.pipes p) (tasksOf p (pending st.threads))) :
    ∀ p, Balanced (st'.pipes p) (tasksOf p (pending st'.threads)) :=
  local_step isTask_of_isPassive h (fun _ _ _ _ _ _ he hk => he.balanced hk) hb

theorem mutex_step (h : step g st l = some st')
    (hm : ∀ p, Mutex (st.pipes p) (lockersOf p (pending st.threads))) :
    ∀ p, Mutex (st'.pipes p) (lockersOf p (pending st'.threads)) :=
  local_step holdsLock_of_isPassive h (fun _ _ _ _ _ _ he hk => he.mutex hk) hm

theorem kinds_step (h : step g st l = some st') (hk : ∀ op ∈ pending st.threads, op.KindOk g) :
    ∀ op ∈ pending st'.threads, op.KindOk g := by
  obtain ⟨p, ps, rem, add, R, hch, he⟩ := step_effect h
  rw [hch.before] at hk
  rw [hch.after]
  intro op hop
  rcases mem_add.mp hop with hop | hop
  · exact he.kinds (fun o ho => hk o (mem_add.mpr (Or.inl ho))) op hop
  · exact hk op (mem_add.mpr (Or.inr hop))

structure Basic (g : Graph P S B) (st : State P S B) : Prop where
  kinds : ∀ op ∈ pending st.threads, op.KindOk g
  balanced : ∀ p, Balanced (st.pipes p) (tasksOf p (pending st.threads))
  mutex : ∀ p, Mutex (st.pipes p) (lockersOf p (pending st.threads))

theorem Basic.step (hb : Basic g st) (h : step g st l = some st') : Basic g st' :=
  ⟨kinds_step h hb.kinds, balanced_step h hb.balanced, mutex_step h hb.mutex⟩

theorem Basic.kinds_rem (hb : Basic g st) {ps : PipeState S B} {R : Multiset (Op P B)}
    (hch : Changes st st' l p ps rem add R) : ∀ op ∈ rem, op.KindOk g := by
  intro op hop
  apply hb.kinds
  rw [hch.before]
  exact mem_add.mpr (Or.inl hop)

theorem Basic.initial (opState : P → S) (partitions : P → List B) (requests : List P) :
    Basic g (State.initial g opState partitions requests) where
  kinds := by simp [State.initial]
  balanced p := by
    simp only [Balanced, State.initial]
    split <;> rfl
  mutex p := by
    simp only [Mutex, State.initial]
    split <;> rfl

namespace Basic

variable {st : State P S B}

theorem locked_of_mem (hb : Basic g st) {op : Op P B} (hop : op ∈ pending st.threads)
    (hl : op.holdsLock = true) : (st.pipes op.pipeline).locked = true := by
  have hm := hb.mutex op.pipeline
  have hle : indicator Op.holdsLock op ≤ lockersOf op.pipeline (pending st.threads) :=
    le_tally hop rfl
  rw [Mutex] at hm
  by_contra hfree
  simp only [Bool.not_eq_true] at hfree
  rw [hm, hfree, indicator, hl] at hle
  exact absurd hle (by decide)

/-- **Mutual exclusion.** Two operations under the same status mutex are never pending together. -/
theorem lock_unique (hb : Basic g st) {op op' : Op P B} (hop : op ∈ pending st.threads)
    (hop' : op' ∈ pending st.threads) (hne : op' ≠ op) (hl : op.holdsLock = true)
    (hl' : op'.holdsLock = true) : op.pipeline ≠ op'.pipeline := by
  intro hp
  obtain ⟨R, hR⟩ := exists_cons_of_mem hop
  have hmem : op' ∈ R := by
    rw [hR, mem_cons] at hop'
    exact hop'.resolve_left hne
  have hle : indicator Op.holdsLock op' ≤ lockersOf op.pipeline R := le_tally hmem hp.symm
  have hsum : lockersOf op.pipeline (pending st.threads) = 1 + lockersOf op.pipeline R := by
    rw [hR]
    simp [indicator, hl]
  have hm := hb.mutex op.pipeline
  have hone := Bool.toNat_le (st.pipes op.pipeline).locked
  simp only [indicator, hl', if_true] at hle
  rw [Mutex] at hm
  omega

theorem counters_eq_iff (hb : Basic g st) (p : P) :
    (st.pipes p).tasksCreated = (st.pipes p).tasksCompleted ↔
      tasksOf p (pending st.threads) = 0 := by
  have hbal := hb.balanced p
  simp only [Balanced] at hbal
  omega

end Basic

end Sirius.Engine
