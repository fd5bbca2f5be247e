import Sirius.Creator.Invariants
import Mathlib.Data.Prod.Lex

/-!
# When the calls of a shutdown return

Without an error branch the thread behind the mutex can always be brought forward: if it waits, then
for steps of the manager and the workers, and these can be chosen so that they come to an end. With an
error branch no run leads to a state in which all calls have returned.
-/

namespace Sirius.Creator

open Lib List Option

/-! ## Measures -/

def Phase.rank : Phase → Nat
  | .interruptQueue => 8
  | .casStop => 7
  | .interruptPool => 6
  | .interruptAgain => 5
  | .joinManager => 4
  | .waitAll => 3
  | .stopPool => 2
  | .joinWorkers => 1
  | .interruptDrain => 4
  | .drainQueue => 3
  | .waitDrain => 2
  | .reactivate => 1
  | .casStart => 2
  | .startPool => 1

def Manager.rank : Manager → Nat
  | .resolve => 4
  | .pop => 3
  | .reserve => 2
  | .check => 1
  | .done => 0

def Worker.rank : Worker → Nat
  | .create => 3
  | .idle => 1
  | .terminate | .stopping | .inside | .ended => 0

def State.calls (s : State) : Nat :=
  9 * s.waiting.length + s.critical.elim 0 fun c => c.2.rank

def Pool.load (p : Pool) : Nat := 4 * p.workQueue + (p.threads.map Worker.rank).sum

def State.load (s : State) : Nat := s.manager.rank + s.pool.elim 0 Pool.load

/-- A step of a manager or a worker leaves the calls alone. -/
def State.measure (s : State) : Nat ×ₗ Nat := toLex (s.calls, s.load)

section Progress

variable {n : Nat} {s s' : State} {p p' : Pool} {t : Thread} {ph : Phase}

theorem measure_lt_of_calls (h : s'.calls < s.calls) : s'.measure < s.measure :=
  Prod.Lex.toLex_lt_toLex.2 (.inl h)

theorem measure_lt_of_load (hc : s'.calls = s.calls) (h : s'.load < s.load) :
    s'.measure < s.measure :=
  Prod.Lex.toLex_lt_toLex.2 (.inr ⟨hc, h⟩)

theorem Call.entry_rank (c : Call) : c.entry.rank < 9 := by
  cases c <;> decide

theorem calls_leave (s : State) (t : Thread) : (s.leave t).calls = 9 * s.waiting.length := by
  cases t <;> rfl

/-- The thread behind the mutex has less to do after each of its operations. -/
theorem criticalStep_calls (hc : s.critical = some (t, ph)) (h : criticalStep n s t ph = some s') :
    s'.calls < s.calls := by
  have hs : s.calls = 9 * s.waiting.length + ph.rank := by
    rw [State.calls, hc]
    rfl
  have hpos : 0 < ph.rank := by cases ph <;> decide
  cases ph with
  | casStop =>
    cases h
    split
    · rw [hs]
      exact Nat.lt_succ_self _
    · rw [calls_leave]
      omega
  | casStart =>
    cases h
    split
    · rw [calls_leave]
      omega
    · rw [hs]
      exact Nat.lt_succ_self _
  | joinManager | waitDrain =>
    simp only [criticalStep] at h
    split at h
    · cases h
      rw [hs]
      exact Nat.lt_succ_self _
    · cases h
  | waitAll =>
    obtain ⟨p, -, h⟩ := bind_eq_some_iff.1 h
    split at h
    · cases h
      rw [hs]
      exact Nat.lt_succ_self _
    · cases h
  | joinWorkers =>
    obtain ⟨p, -, h⟩ := bind_eq_some_iff.1 h
    split at h
    · cases h
      rw [calls_leave]
      show 9 * s.waiting.length < _
      omega
    · cases h
  | reactivate | startPool =>
    cases h
    rw [calls_leave]
    show 9 * s.waiting.length < _
    omega
  | interruptQueue | interruptPool | interruptAgain | stopPool | interruptDrain | drainQueue =>
    cases h
    rw [hs]
    exact Nat.lt_succ_self _

/-! ## The manager and the workers come to an end -/

/-- A manager that holds a slot, or that is to end, has a next operation once the queue is
interrupted. -/
theorem managerStep_load (hp : s.pool = some p) (hq : s.queueActive = false)
    (h : s.manager.slots = 1 ∨ s.manager ≠ .done ∧ s.running = false ∧ p.interrupted = true) :
    ∃ s', managerStep s false = some s' ∧ s'.load < s.load ∧ s'.calls = s.calls := by
  have hload : s.load = s.manager.rank + p.load := by
    rw [State.load, hp]
    rfl
  cases hm : s.manager with
  | check =>
    rw [hm] at h
    obtain h | ⟨-, hrun, -⟩ := h
    · cases h
    · refine ⟨{ s with manager := .done }, by simp [managerStep, hm, hrun], ?_, rfl⟩
      rw [hload, hm, State.load, hp]
      exact Nat.add_lt_add_right Nat.zero_lt_one _
  | reserve =>
    rw [hm] at h
    obtain h | ⟨-, -, hint⟩ := h
    · cases h
    · refine ⟨{ s with manager := .done }, by simp [managerStep, hm, hp, hint], ?_, rfl⟩
      rw [hload, hm, State.load, hp]
      exact Nat.add_lt_add_right Nat.zero_lt_two _
  | pop =>
    refine ⟨{ s with pool := some p.releaseSlot, manager := .check },
      by simp [managerStep, hm, hp, hq], ?_, rfl⟩
    rw [hload, hm]
    exact Nat.add_lt_add_right (by decide : 1 < 3) p.load
  | resolve =>
    refine ⟨{ s with pool := some p.releaseSlot, manager := .check },
      by simp [managerStep, hm, hp], ?_, rfl⟩
    rw [hload, hm]
    exact Nat.add_lt_add_right (by decide : 1 < 4) p.load
  | done =>
    rw [hm] at h
    obtain h | ⟨h, -⟩ := h
    · cases h
    · exact absurd rfl h

def Pool.Sound (p : Pool) : Prop := ∀ w ∈ p.threads, w.failed = false

theorem Pool.Sound.set {i : Nat} {w : Worker} (h : p.Sound) (hw : w.failed = false) :
    (p.set i w).Sound := by
  intro w' hw'
  rcases mem_or_eq_of_mem_set hw' with hw' | rfl
  · exact h w' hw'
  · exact hw

/-- Some worker runs a creation function, or can take one, or can end. -/
def Pool.Movable (p : Pool) : Prop :=
  ∃ (i : Nat) (w : Worker), p.threads[i]? = some w ∧
    (w = .create ∨ w = .idle ∧ (0 < p.workQueue ∨ p.stopRequested = true))

theorem Pool.Movable.step (h : p.Movable) (hs : p.Sound) :
    ∃ i p', workerStep p i false = some p' ∧ p'.load < p.load ∧ p'.Sound := by
  obtain ⟨i, w, hi, hw⟩ := h
  have hbefore := sum_map_eraseIdx Worker.rank hi
  have hafter := sum_map_set Worker.rank hi
  rcases hw with rfl | ⟨rfl, hw⟩
  · refine ⟨i, (p.set i .idle).releaseSlot, by simp [workerStep, hi], ?_, hs.set rfl⟩
    have := hafter .idle
    simp only [Pool.load, Pool.releaseSlot, Pool.set, Worker.rank] at *
    omega
  · by_cases h0 : p.workQueue = 0
    · have hstop : p.stopRequested = true := hw.resolve_left (by omega)
      refine ⟨i, p.set i .ended, by simp [workerStep, hi, h0, hstop], ?_, hs.set rfl⟩
      have := hafter .ended
      simp only [Pool.load, Pool.set, Worker.rank] at *
      omega
    · refine ⟨i, { p with workQueue := p.workQueue - 1 }.set i .create,
        by simp [workerStep, hi, h0], ?_, Pool.Sound.set (p := { p with workQueue := p.workQueue - 1 }) hs rfl⟩
      have := hafter .create
      simp only [Pool.load, Pool.set, Worker.rank] at *
      omega

/-- While slots are in use and none of them is the manager's, some worker has a next operation. -/
theorem Pool.Ok.movable_of_active (hok : p.Ok s.manager) (hs : p.Sound) (hm : s.manager.slots = 0)
    (hact : p.active ≠ 0) (hstop : p.stopRequested = false) :
    p.Movable := by
  by_cases hcreate : .create ∈ p.threads
  · obtain ⟨i, hi⟩ := mem_iff_getElem?.1 hcreate
    exact ⟨i, _, hi, .inl rfl⟩
  · -- nobody runs, so a function is queued, and the first worker is idle
    have hidle : ∀ w ∈ p.threads, w = .idle := by
      intro w hw
      have hfail := hs w hw
      cases w with
      | idle => rfl
      | create => exact absurd hw hcreate
      | ended =>
        rw [hok.ended hw] at hstop
        cases hstop
      | terminate | stopping | inside => cases hfail
    have hsum : (p.threads.map Worker.slots).sum = 0 := by
      rw [sum_eq_zero]
      intro k hk
      obtain ⟨w, hw, rfl⟩ := mem_map.1 hk
      rw [hidle w hw]
      rfl
    have hslots := hok.slots
    have hlen : 0 < p.threads.length := lt_of_lt_of_le (Nat.pos_of_ne_zero hact) hok.bounded
    refine ⟨0, .idle, ?_, .inr ⟨rfl, .inl (by omega)⟩⟩
    rw [getElem?_eq_getElem hlen, hidle _ (getElem_mem hlen)]

/-- A pool that is stopped and has no slot in use has a worker that can end, if one is left. -/
theorem Pool.Ok.movable_of_stopped (hok : p.Ok s.manager) (hs : p.Sound) (hact : p.active = 0)
    (hstop : p.stopRequested = true) (hne : ¬ ∀ w ∈ p.threads, w = .ended) :
    p.Movable := by
  obtain ⟨w, hne⟩ := not_forall.1 hne
  obtain ⟨hw, hne⟩ := Classical.not_imp.1 hne
  obtain ⟨i, hi⟩ := mem_iff_getElem?.1 hw
  have hslots := hok.slots_le hw
  have hfail := hs w hw
  refine ⟨i, w, hi, .inr ⟨?_, .inr hstop⟩⟩
  cases w with
  | idle => rfl
  | ended => exact absurd rfl hne
  | create =>
    rw [hact] at hslots
    cases hslots
  | terminate | stopping | inside => cases hfail

/-! ## Progress -/

theorem State.sound (hf : ¬ s.Failed) (hp : s.pool = some p) : p.Sound := by
  intro w hw
  cases hfail : w.failed with
  | false => rfl
  | true => exact absurd ⟨p, hp, w, hw, hfail⟩ hf

/-- One step that brings the calls forward. -/
def Progress (n : Nat) (s : State) : Prop :=
  ∃ l s', step n s l = some s' ∧ ¬ s'.Failed ∧ s'.measure < s.measure

theorem Progress.ofWorker (hf : ¬ s.Failed) (hp : s.pool = some p) (h : p.Movable) :
    Progress n s := by
  obtain ⟨i, p', hstep, hload, hs'⟩ := h.step (State.sound hf hp)
  refine ⟨.worker i false, { s with pool := some p' }, by simp [step, hp, hstep], ?_, ?_⟩
  · rintro ⟨p₁, ⟨⟩, w₁, hw₁, hfail⟩
    rw [hs' w₁ hw₁] at hfail
    cases hfail
  · refine measure_lt_of_load rfl ?_
    rw [State.load, State.load, hp]
    exact Nat.add_lt_add_left hload _

theorem Progress.ofManager (hI : Inv s) (hf : ¬ s.Failed) (hp : s.pool = some p)
    (hq : s.queueActive = false)
    (h : s.manager.slots = 1 ∨ s.manager ≠ .done ∧ s.running = false ∧ p.interrupted = true) :
    Progress n s := by
  obtain ⟨s', hstep, hload, hcalls⟩ := managerStep_load hp hq h
  obtain ⟨-, hth⟩ := hI.managerStep hstep
  exact ⟨.manager false, s', hstep, fun h => hf (hth.failed_iff.2 h), measure_lt_of_load hcalls hload⟩

/-- The thread behind the mutex, or one it waits for, can move. -/
theorem Progress.ofCritical (hI : Inv s) (hf : ¬ s.Failed) (hc : s.critical = some (t, ph)) :
    Progress n s := by
  cases hstep : criticalStep n s t ph with
  | some s' =>
    refine ⟨.critical, s', by simp [step, hc, hstep], ?_, ?_⟩
    · exact fun h => hf ((hI.criticalStep hc hstep).2.2 h)
    · exact measure_lt_of_calls (criticalStep_calls hc hstep)
  | none =>
    have hr : s.Reached (some ph) := by
      have := hI.reached
      rwa [hc] at this
    cases ph with
    | joinManager =>
      obtain ⟨p, ⟨hp, hrun, -⟩, hint, hq⟩ := hr
      have hm : s.manager ≠ .done := by
        intro hm
        simp [criticalStep, hm] at hstep
      exact .ofManager hI hf hp hq (.inr ⟨hm, hrun, hint⟩)
    | waitAll =>
      obtain ⟨p, ⟨hp, -, hstop⟩, hm⟩ := hr
      have hact : p.active ≠ 0 := by
        intro hact
        simp [criticalStep, hp, hact] at hstep
      have hm0 : s.manager.slots = 0 := by
        rw [hm]
        rfl
      exact .ofWorker hf hp ((hI.pool p hp).movable_of_active (State.sound hf hp) hm0 hact hstop)
    | joinWorkers =>
      obtain ⟨p, hp, hstop, -, -, hact⟩ := hr
      have hne : ¬ ∀ w ∈ p.threads, w = .ended := by
        intro hall
        simp only [criticalStep, hp, bind_some, if_pos hall] at hstep
        cases hstep
      exact .ofWorker hf hp ((hI.pool p hp).movable_of_stopped (State.sound hf hp) hact hstop hne)
    | waitDrain =>
      obtain ⟨hsteady, hq⟩ := hr
      have hact : ∃ p, s.pool = some p ∧ p.active ≠ 0 := by
        by_contra hno
        have hall : ∀ p ∈ s.pool, p.active = 0 := by
          intro p hp
          by_contra hact
          exact hno ⟨p, hp, hact⟩
        simp only [criticalStep, if_pos hall] at hstep
        cases hstep
      obtain ⟨p, hp, hact⟩ := hact
      have hstop : p.stopRequested = false := by
        rcases hsteady with ⟨p', hp', -, hstop⟩ | ⟨hnone, -⟩
        · obtain rfl := mem_unique hp hp'
          exact hstop
        · rw [hp] at hnone
          cases hnone
      -- the manager lets go of its slot, and then the workers come to an end
      by_cases hm : s.manager.slots = 1
      · exact .ofManager hI hf hp hq (.inl hm)
      · have hm0 : s.manager.slots = 0 := by
          cases hman : s.manager <;> simp_all [Manager.slots]
        exact .ofWorker hf hp
          ((hI.pool p hp).movable_of_active (State.sound hf hp) hm0 hact hstop)
    | casStop | casStart | interruptQueue | interruptPool | interruptAgain | stopPool
    | interruptDrain | drainQueue | reactivate | startPool => cases hstep

theorem returned_or_progress (hI : Inv s) (hf : ¬ s.Failed) : s.Returned ∨ Progress n s := by
  cases hc : s.critical with
  | some c => exact .inr (.ofCritical hI hf hc)
  | none =>
    cases hw : s.waiting with
    | nil => exact .inl ⟨hw, hc, hf⟩
    | cons c cs =>
      refine .inr ⟨.enter 0, { s with waiting := cs, critical := some (.caller, c.entry) },
        by simp [step, hc, hw], hf, measure_lt_of_calls ?_⟩
      have := c.entry_rank
      simp only [State.calls, hc, hw, Option.elim, length_cons]
      omega

/-- **When a shutdown returns.** In a creator with any number of threads, from a state that any
interleaving has reached, all calls can return exactly if no creation function has thrown: the error
branch of one that has waits for its own slot for ever. -/
theorem calls_return_iff (n : Nat) (h : Run (step n) (fun _ _ => True) State.initial s) :
    (∃ s', Run (step n) (fun _ _ => True) s s' ∧ s'.Returned) ↔ ¬ s.Failed := by
  have hI := Inv.run h
  constructor
  · rintro ⟨s', hrun, hret⟩ hf
    exact hret.error (hI.failed_run hf hrun)
  · intro hf
    -- each step taken keeps the invariant and brings the calls forward
    have hstep : ∀ a, Inv a ∧ ¬ a.Failed → a.Returned ∨
        ∃ b, Run (step n) (fun _ _ => True) a b ∧ (Inv b ∧ ¬ b.Failed) ∧ b.measure < a.measure := by
      intro a ⟨ha, hfa⟩
      rcases returned_or_progress (n := n) ha hfa with hret | ⟨l, b, hl, hfb, hlt⟩
      · exact .inl hret
      · exact .inr ⟨b, .single l trivial hl, ⟨(ha.step hl).1, hfb⟩, hlt⟩
    obtain ⟨s', hrun, -, hret⟩ := Run.exists_of_measure _ _ State.measure hstep ⟨hI, hf⟩
    exact ⟨s', hrun, hret⟩

/-- A run to a creation function in flight, with a `stop_thread_pool` behind the mutex and a
`drain_pending_tasks` at it. -/
def stopWhileCreating : List Label :=
  [.call .startThreadPool, .enter 0, .critical, .critical, .request, .manager true, .manager true,
    .manager true, .manager true, .worker 0 false, .call .stopThreadPool, .enter 0,
    .call .drainPendingTasks, .critical]

theorem stopWhileCreating_returns :
    ∃ s s', Run (step 2) (fun _ _ => True) State.initial s ∧ s.waiting ≠ [] ∧ s.critical ≠ none ∧
      Run (step 2) (fun _ _ => True) s s' ∧ s'.Returned := by
  obtain ⟨s, hrun, hw, hc, hpool⟩ : ∃ s, Run (step 2) (fun _ _ => true = true) State.initial s ∧
      s.waiting ≠ [] ∧ s.critical ≠ none ∧
        s.pool.map Pool.threads = some [.create, .idle] := by
    apply Run.exists_of_runLabels stopWhileCreating
    decide
  have hrun' : Run (step 2) (fun _ _ => True) State.initial s := hrun.mono fun _ _ _ => trivial
  have hf : ¬ s.Failed := by
    rintro ⟨p, hp, w, hw, hfail⟩
    rw [hp] at hpool
    rw [some.inj hpool] at hw
    simp only [mem_cons, not_mem_nil, or_false] at hw
    rcases hw with rfl | rfl
    · cases hfail
    · cases hfail
  obtain ⟨s', hs', hret⟩ := (calls_return_iff 2 hrun').2 hf
  exact ⟨s, s', hrun', hw, hc, hs', hret⟩

/-- One thread, one request, and the creation function throws: its worker is behind the mutex and waits
for its own slot. No run from there returns. -/
theorem creation_error_hangs :
    ∃ s, Run (step 1) (fun _ _ => True) State.initial s ∧
      s.critical = some (.worker 0, .waitAll) ∧ s.pool.map Pool.active = some 1 ∧
      ∀ s', Run (step 1) (fun _ _ => True) s s' → ¬ s'.Returned := by
  obtain ⟨s, hrun, hc, hact⟩ : ∃ s, Run (step 1) (fun _ _ => true = true) State.initial s ∧
      s.critical = some (.worker 0, .waitAll) ∧ s.pool.map Pool.active = some 1 := by
    apply Run.exists_of_runLabels [Label.call .startThreadPool, Label.enter 0, Label.critical,
      Label.critical, Label.request, Label.manager true, Label.manager true, Label.manager true,
      Label.manager true, Label.worker 0 false, Label.worker 0 true, Label.worker 0 false,
      Label.enterWorker 0, Label.critical, Label.critical, Label.critical, Label.critical,
      Label.manager true, Label.critical]
    decide
  have hrun' : Run (step 1) (fun _ _ => True) State.initial s := hrun.mono fun _ _ _ => trivial
  refine ⟨s, hrun', hc, hact, ?_⟩
  intro s' hs' hret
  have hI := Inv.run hrun'
  obtain ⟨-, p, hp, hin⟩ := hI.owner _ _ hc
  exact hret.error (hI.failed_run ⟨p, hp, _, mem_of_getElem? hin, rfl⟩ hs')

end Progress

end Sirius.Creator
