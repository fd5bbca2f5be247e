import Sirius.Creator.Shutdown

/-!
# What holds during a shutdown

The slots of the pool are those of the manager, of the queued creation functions and of the workers.
A worker in the error branch keeps its slot, so nobody gets past a wait for all slots any more, and
nobody can leave `do_stop_thread_pool` early either: the flag `_running` is down only while its stopper
is behind the mutex.
-/

namespace Sirius.Creator

open Lib List Option

/-! ## Slots -/

def Worker.slots : Worker → Nat
  | .create | .terminate | .stopping | .inside => 1
  | .idle | .ended => 0

def Manager.slots : Manager → Nat
  | .pop | .resolve => 1
  | .check | .reserve | .done => 0

/-- The bookkeeping of a pool whose manager is at `m`. -/
structure Pool.Ok (p : Pool) (m : Manager) : Prop where
  slots : p.active = p.workQueue + (p.threads.map Worker.slots).sum + m.slots
  bounded : p.active ≤ p.threads.length
  ended : .ended ∈ p.threads → p.stopRequested = true

section Pool

variable {p p' : Pool} {m : Manager} {i : Nat} {w : Worker} {throws : Bool}

/-- A slot that somebody holds is counted. -/
theorem Pool.Ok.slots_le (h : p.Ok m) (hw : w ∈ p.threads) : w.slots ≤ p.active := by
  obtain ⟨i, hi⟩ := mem_iff_getElem?.1 hw
  have hsum := sum_map_eraseIdx Worker.slots hi
  have := h.slots
  omega

theorem mem_set_of_ended {l : List Worker} (h : Worker.ended ∈ l.set i w) (hw : w ≠ .ended) :
    Worker.ended ∈ l := by
  rcases mem_or_eq_of_mem_set h with h | h
  · exact h
  · exact absurd h.symm hw

theorem Pool.Ok.set (h : p.Ok m) (hi : p.threads[i]? = some w) {w' : Worker} {active workQueue : Nat}
    (hslots : active + p.workQueue + w.slots = p.active + workQueue + w'.slots)
    (hle : active ≤ p.active) (hw' : w' = .ended → p.stopRequested = true) :
    Pool.Ok { p with threads := p.threads.set i w', active, workQueue } m where
  slots := by
    have hbefore := sum_map_eraseIdx Worker.slots hi
    have hafter := sum_map_set Worker.slots hi w'
    have := h.slots
    simp only
    omega
  bounded := by simpa using hle.trans h.bounded
  ended hmem := by
    by_cases he : w' = .ended
    · exact hw' he
    · exact h.ended (mem_set_of_ended hmem he)

theorem Pool.Ok.release (h : p.Ok m) (hi : p.threads[i]? = some w) (hw : w.slots = 1) :
    ((p.set i .idle).releaseSlot).Ok m := by
  have hpos := h.slots_le (mem_of_getElem? hi)
  refine h.set hi ?_ (Nat.sub_le _ _) (by simp)
  show p.active - 1 + p.workQueue + w.slots = p.active + p.workQueue + 0
  omega

/-- **What a worker does.** It takes a creation function, returns from one with its slot, moves on in
the error branch, or ends. -/
theorem workerStep_cases (h : workerStep p i throws = some p') :
    (p.threads[i]? = some .idle ∧ p.workQueue = 0 ∧ p.stopRequested = true ∧ p' = p.set i .ended) ∨
    (p.threads[i]? = some .idle ∧ 0 < p.workQueue ∧
      p' = { p with workQueue := p.workQueue - 1 }.set i .create) ∨
    (p.threads[i]? = some .create ∧ throws = false ∧ p' = (p.set i .idle).releaseSlot) ∨
    (∃ w, p.threads[i]? = some w ∧ w.slots = 1 ∧ (w = .create ∧ p' = p.set i .terminate ∨
      w = .terminate ∧ p' = p.set i .stopping)) := by
  unfold workerStep at h
  obtain ⟨w, hw, h⟩ := bind_eq_some_iff.1 h
  cases w with
  | idle =>
    simp only at h
    split at h
    · split at h
      · cases h
        exact .inl ⟨hw, ‹_›, ‹_›, rfl⟩
      · cases h
    · cases h
      exact .inr (.inl ⟨hw, Nat.pos_of_ne_zero ‹_›, rfl⟩)
  | create =>
    cases throws with
    | false =>
      cases h
      exact .inr (.inr (.inl ⟨hw, rfl, rfl⟩))
    | true =>
      cases h
      exact .inr (.inr (.inr ⟨_, hw, rfl, .inl ⟨rfl, rfl⟩⟩))
  | terminate =>
    cases h
    exact .inr (.inr (.inr ⟨_, hw, rfl, .inr ⟨rfl, rfl⟩⟩))
  | stopping => cases h
  | inside => cases h
  | ended => cases h

theorem Pool.Ok.workerStep (h : p.Ok m) (hstep : workerStep p i throws = some p') : p'.Ok m := by
  rcases workerStep_cases hstep with ⟨hi, -, hstop, rfl⟩ | ⟨hi, hpos, rfl⟩ | ⟨hi, -, rfl⟩ |
    ⟨w, hi, hw, ⟨rfl, rfl⟩ | ⟨rfl, rfl⟩⟩
  · exact h.set hi rfl le_rfl (fun _ => hstop)
  · refine h.set hi ?_ le_rfl (by simp)
    simp only [Worker.slots]
    omega
  · exact h.release hi rfl
  · exact h.set hi rfl le_rfl (by simp)
  · exact h.set hi rfl le_rfl (by simp)

theorem inside_of_set (hi : p.threads[i]? = some w) (hne : w ≠ .inside) (w' : Worker) {j : Nat}
    (hj : p.threads[j]? = some Worker.inside) :
    (p.threads.set i w')[j]? = some Worker.inside := by
  have hij : i ≠ j := by
    intro hij
    rw [hij, hj] at hi
    exact hne (some.inj hi).symm
  rw [getElem?_set_ne hij, hj]

/-- A worker leaves the flags and the worker behind the mutex alone and takes no slot. -/
theorem workerStep_frame (h : workerStep p i throws = some p') :
    p'.interrupted = p.interrupted ∧ p'.stopRequested = p.stopRequested ∧ p'.active ≤ p.active ∧
      ∀ {j : Nat}, p.threads[j]? = some Worker.inside → p'.threads[j]? = some Worker.inside := by
  rcases workerStep_cases h with ⟨hi, -, -, rfl⟩ | ⟨hi, -, rfl⟩ | ⟨hi, -, rfl⟩ |
    ⟨w, hi, -, ⟨rfl, rfl⟩ | ⟨rfl, rfl⟩⟩
  case inr.inr.inl => exact ⟨rfl, rfl, Nat.sub_le _ _, inside_of_set hi (by simp) _⟩
  all_goals exact ⟨rfl, rfl, le_rfl, inside_of_set hi (by simp) _⟩

theorem workerStep_failed (h : workerStep p i throws = some p') (hw : w ∈ p.threads)
    (hfail : w.failed = true) : ∃ w' ∈ p'.threads, w'.failed = true := by
  obtain ⟨j, hj⟩ := mem_iff_getElem?.1 hw
  by_cases hij : i = j
  · subst hij
    rcases workerStep_cases h with ⟨hi, -⟩ | ⟨hi, -⟩ | ⟨hi, -⟩ | ⟨w₁, hi, -, ⟨rfl, -⟩ | ⟨rfl, rfl⟩⟩
    all_goals
      obtain rfl := mem_unique hj hi
    · cases hfail
    · cases hfail
    · cases hfail
    · cases hfail
    · exact ⟨.stopping, mem_of_getElem?
        (getElem?_set_self (List.getElem?_eq_some_iff.1 hi).1), rfl⟩
  · have hother : ∀ w', (p.threads.set i w')[j]? = some w := by
      intro w'
      rw [getElem?_set_ne hij, hj]
    rcases workerStep_cases h with ⟨-, -, -, rfl⟩ | ⟨-, -, rfl⟩ | ⟨-, -, rfl⟩ |
      ⟨-, -, -, ⟨-, rfl⟩ | ⟨-, rfl⟩⟩
    all_goals exact ⟨w, mem_of_getElem? (hother _), hfail⟩

end Pool

/-! ## The place behind the mutex -/

/-- Between two calls: the pool is up exactly while the flag is. -/
def State.Steady (s : State) : Prop :=
  (∃ p, s.pool = some p ∧ s.running = true ∧ p.stopRequested = false) ∨
    (s.pool = none ∧ s.running = false ∧ s.manager = .done)

/-- In `do_stop_thread_pool`, with the flag taken down. -/
def State.Stopping (s : State) (p : Pool) : Prop :=
  s.pool = some p ∧ s.running = false ∧ p.stopRequested = false

/-- What the thread behind the mutex has reached at each of its operations. -/
def State.Reached (s : State) : Option Phase → Prop
  | none | some .interruptQueue | some .casStop | some .interruptDrain | some .reactivate
  | some .casStart => s.Steady
  | some .drainQueue | some .waitDrain => s.Steady ∧ s.queueActive = false
  | some .interruptPool => ∃ p, s.Stopping p
  | some .interruptAgain => ∃ p, s.Stopping p ∧ p.interrupted = true
  | some .joinManager => ∃ p, s.Stopping p ∧ p.interrupted = true ∧ s.queueActive = false
  | some .waitAll => ∃ p, s.Stopping p ∧ s.manager = .done
  | some .stopPool => ∃ p, s.Stopping p ∧ s.manager = .done ∧ p.active = 0
  | some .joinWorkers =>
    ∃ p, s.pool = some p ∧ p.stopRequested = true ∧ s.running = false ∧ s.manager = .done ∧
      p.active = 0
  | some .startPool => s.pool = none ∧ s.running = true ∧ s.manager = .done

def Phase.ofStop : Phase → Bool
  | .interruptQueue | .casStop | .interruptPool | .interruptAgain | .joinManager | .waitAll
  | .stopPool | .joinWorkers => true
  | .interruptDrain | .drainQueue | .waitDrain | .reactivate | .casStart | .startPool => false

structure Inv (s : State) : Prop where
  pool : ∀ p, s.pool = some p → p.Ok s.manager
  -- a worker is behind the mutex for `stop` only, and still holds its slot
  owner : ∀ i ph, s.critical = some (.worker i, ph) →
    ph.ofStop = true ∧ ∃ p, s.pool = some p ∧ p.threads[i]? = some .inside
  reached : s.Reached (s.critical.map Prod.snd)

theorem Inv.initial : Inv State.initial where
  pool := by simp [State.initial]
  owner := by simp [State.initial]
  reached := .inr ⟨rfl, rfl, rfl⟩

structure Outside (s s' : State) : Prop where
  running : s'.running = s.running
  queueActive : s'.queueActive = s.queueActive
  manager : s.manager = .done → s'.manager = .done
  poolNone : s.pool = none → s'.pool = none
  poolSome : ∀ p, s.pool = some p → ∃ p', s'.pool = some p' ∧ p'.interrupted = p.interrupted ∧
    p'.stopRequested = p.stopRequested ∧ (s.manager = .done → p.active = 0 → p'.active = 0)

section Outside

variable {s s' : State}

theorem Outside.steady (h : Outside s s') (hs : s.Steady) : s'.Steady := by
  rcases hs with ⟨p, hp, hrun, hstop⟩ | ⟨hp, hrun, hm⟩
  · obtain ⟨p', hp', -, hstop', -⟩ := h.poolSome p hp
    exact .inl ⟨p', hp', h.running.trans hrun, hstop'.trans hstop⟩
  · exact .inr ⟨h.poolNone hp, h.running.trans hrun, h.manager hm⟩

theorem Outside.stopping (h : Outside s s') {p : Pool} (hs : s.Stopping p) :
    ∃ p', s'.Stopping p' ∧ p'.interrupted = p.interrupted ∧
      (s.manager = .done → p.active = 0 → p'.active = 0) := by
  obtain ⟨hp, hrun, hstop⟩ := hs
  obtain ⟨p', hp', hint, hstop', hact⟩ := h.poolSome p hp
  exact ⟨p', ⟨hp', h.running.trans hrun, hstop'.trans hstop⟩, hint, hact⟩

/-- The thread behind the mutex finds what it has reached. -/
theorem Outside.reached (h : Outside s s') {ph : Option Phase} (hs : s.Reached ph) :
    s'.Reached ph := by
  match ph with
  | none | some .interruptQueue | some .casStop | some .interruptDrain | some .reactivate
  | some .casStart => exact h.steady hs
  | some .drainQueue | some .waitDrain => exact ⟨h.steady hs.1, h.queueActive.trans hs.2⟩
  | some .interruptPool =>
    obtain ⟨p, hp⟩ := hs
    obtain ⟨p', hp', -⟩ := h.stopping hp
    exact ⟨p', hp'⟩
  | some .interruptAgain =>
    obtain ⟨p, hp, hint⟩ := hs
    obtain ⟨p', hp', hint', -⟩ := h.stopping hp
    exact ⟨p', hp', hint'.trans hint⟩
  | some .joinManager =>
    obtain ⟨p, hp, hint, hq⟩ := hs
    obtain ⟨p', hp', hint', -⟩ := h.stopping hp
    exact ⟨p', hp', hint'.trans hint, h.queueActive.trans hq⟩
  | some .waitAll =>
    obtain ⟨p, hp, hm⟩ := hs
    obtain ⟨p', hp', -⟩ := h.stopping hp
    exact ⟨p', hp', h.manager hm⟩
  | some .stopPool =>
    obtain ⟨p, hp, hm, hact⟩ := hs
    obtain ⟨p', hp', -, hact'⟩ := h.stopping hp
    exact ⟨p', hp', h.manager hm, hact' hm hact⟩
  | some .joinWorkers =>
    obtain ⟨p, hp, hstop, hrun, hm, hact⟩ := hs
    obtain ⟨p', hp', -, hstop', hact'⟩ := h.poolSome p hp
    exact ⟨p', hp', hstop'.trans hstop, h.running.trans hrun, h.manager hm, hact' hm hact⟩
  | some .startPool => exact ⟨h.poolNone hs.1, h.running.trans hs.2.1, h.manager hs.2.2⟩

end Outside

/-! ## The manager and the workers -/

section Step

variable {n : Nat} {s s' : State}

/-- **What the manager does.** It moves on with the slots it has, takes a slot, gives its slot back or
passes it on to the queue of the pool. -/
theorem managerStep_cases {found : Bool} (h : managerStep s found = some s') :
    s.manager ≠ .done ∧
    ((∃ m queue, s' = { s with manager := m, queue } ∧ m.slots = s.manager.slots) ∨
    ∃ p, s.pool = some p ∧
      ((s.manager.slots = 0 ∧ p.active < p.threads.length ∧
        s' = { s with pool := some { p with active := p.active + 1 }, manager := .pop }) ∨
      (s.manager.slots = 1 ∧ s' = { s with pool := some p.releaseSlot, manager := .check }) ∨
      (s.manager.slots = 1 ∧
        s' = { s with pool := some { p with workQueue := p.workQueue + 1 }, manager := .check }))) := by
  unfold managerStep at h
  cases hm : s.manager <;> simp only [hm] at h
  case check =>
    cases h
    refine ⟨by simp, .inl ⟨_, s.queue, rfl, ?_⟩⟩
    split <;> rfl
  case reserve =>
    obtain ⟨p, hp, h⟩ := bind_eq_some_iff.1 h
    split at h
    · cases h
      exact ⟨by simp, .inl ⟨_, s.queue, rfl, rfl⟩⟩
    · split at h
      · cases h
        exact ⟨by simp, .inr ⟨p, hp, .inl ⟨rfl, ‹_›, rfl⟩⟩⟩
      · cases h
  case pop =>
    obtain ⟨p, hp, h⟩ := bind_eq_some_iff.1 h
    split at h
    · cases h
      exact ⟨by simp, .inr ⟨p, hp, .inr (.inl ⟨rfl, rfl⟩)⟩⟩
    · split at h
      · cases h
      · cases h
        exact ⟨by simp, .inl ⟨_, _, rfl, rfl⟩⟩
  case resolve =>
    obtain ⟨p, hp, h⟩ := bind_eq_some_iff.1 h
    split at h
    · cases h
      exact ⟨by simp, .inr ⟨p, hp, .inr (.inr ⟨rfl, rfl⟩)⟩⟩
    · cases h
      exact ⟨by simp, .inr ⟨p, hp, .inr (.inl ⟨rfl, rfl⟩)⟩⟩
  case done =>
    cases h

def State.SameThreads (s s' : State) : Prop :=
  s'.pool.map Pool.threads = s.pool.map Pool.threads

theorem State.SameThreads.exists (h : s.SameThreads s') {p : Pool} (hp : s.pool = some p) :
    ∃ p', s'.pool = some p' ∧ p'.threads = p.threads := by
  unfold State.SameThreads at h
  rw [hp] at h
  obtain ⟨p', hp', heq⟩ := map_eq_some_iff.1 h
  exact ⟨p', hp', heq⟩

variable {p p' : Pool}

/-- A pool that looks the same from behind the mutex takes the place of the pool. -/
theorem Inv.updatePool (hI : Inv s) (hp : s.pool = some p) {m : Manager}
    (hm : s.manager = .done → m = .done) (hok : p'.Ok m) (hint : p'.interrupted = p.interrupted)
    (hstop : p'.stopRequested = p.stopRequested)
    (hact : s.manager = .done → p.active = 0 → p'.active = 0)
    (hinside : ∀ {j : Nat}, p.threads[j]? = some .inside → p'.threads[j]? = some .inside) :
    Inv { s with pool := some p', manager := m } := by
  have hout : Outside s { s with pool := some p', manager := m } :=
    { running := rfl
      queueActive := rfl
      manager := hm
      poolNone := fun hn => by rw [hn] at hp; cases hp
      poolSome := by
        intro p₁ hp₁
        obtain rfl := mem_unique hp hp₁
        exact ⟨p', rfl, hint, hstop, hact⟩ }
  refine ⟨?_, ?_, hout.reached hI.reached⟩
  · intro p₁ hp₁
    cases hp₁
    exact hok
  · intro i ph hc
    obtain ⟨hst, p₁, hp₁, hin⟩ := hI.owner i ph hc
    obtain rfl := mem_unique hp hp₁
    exact ⟨hst, p', rfl, hinside hin⟩

theorem Inv.managerStep {found : Bool} (hI : Inv s) (h : managerStep s found = some s') :
    Inv s' ∧ s.SameThreads s' := by
  obtain ⟨hm, h⟩ := managerStep_cases h
  rcases h with ⟨m, queue, rfl, hslots⟩ | ⟨p, hp, h⟩
  · have hout : Outside s { s with manager := m, queue } :=
      { running := rfl
        queueActive := rfl
        manager := fun hd => absurd hd hm
        poolNone := id
        poolSome := fun p hp => ⟨p, hp, rfl, rfl, fun _ h => h⟩ }
    refine ⟨⟨?_, hI.owner, hout.reached hI.reached⟩, rfl⟩
    intro p hp
    obtain ⟨hs, hb, he⟩ := hI.pool p hp
    exact ⟨by simp only [hslots]; exact hs, hb, he⟩
  · -- the manager keeps its hands off everything but the slots
    have key : ∀ active workQueue m,
        Pool.Ok { p with active, workQueue } m →
        Inv { s with pool := some { p with active, workQueue }, manager := m } ∧
          s.SameThreads { s with pool := some { p with active, workQueue }, manager := m } :=
      fun _ _ _ hok =>
        ⟨hI.updatePool hp (absurd · hm) hok rfl rfl (absurd · hm) id, by simp [State.SameThreads, hp]⟩
    obtain ⟨hs, hb, he⟩ := hI.pool p hp
    rcases h with ⟨hslots, hlt, rfl⟩ | ⟨hslots, rfl⟩ | ⟨hslots, rfl⟩
    · refine key (p.active + 1) p.workQueue .pop ⟨?_, hlt, he⟩
      show p.active + 1 = p.workQueue + (p.threads.map Worker.slots).sum + 1
      omega
    · refine key (p.active - 1) p.workQueue .check ⟨?_, (Nat.sub_le _ _).trans hb, he⟩
      show p.active - 1 = p.workQueue + (p.threads.map Worker.slots).sum + 0
      omega
    · refine key p.active (p.workQueue + 1) .check ⟨?_, hb, he⟩
      show p.active = p.workQueue + 1 + (p.threads.map Worker.slots).sum + 0
      omega

theorem Inv.workerStep {i : Nat} {throws : Bool} (hI : Inv s) (hp : s.pool = some p)
    (h : workerStep p i throws = some p') : Inv { s with pool := some p' } := by
  obtain ⟨hint, hstop, hact, hinside⟩ := workerStep_frame h
  exact hI.updatePool hp id ((hI.pool p hp).workerStep h) hint hstop (fun _ h0 => by omega) hinside

/-! ## The thread behind the mutex -/

theorem State.SameThreads.failed (h : s.SameThreads s') (hf : s.Failed) : s'.Failed := by
  obtain ⟨p, hp, w, hw, hfail⟩ := hf
  obtain ⟨p', hp', hth⟩ := h.exists hp
  exact ⟨p', hp', w, hth ▸ hw, hfail⟩

theorem State.SameThreads.failed_iff (h : s.SameThreads s') : s.Failed ↔ s'.Failed :=
  ⟨h.failed, State.SameThreads.failed h.symm⟩

variable {t : Thread} {ph ph' : Phase}

theorem Inv.advance (hI : Inv s) (hc : s.critical = some (t, ph))
    (hc' : s'.critical = some (t, ph')) (hph : ph.ofStop = true → ph'.ofStop = true)
    (hok : ∀ p, s'.pool = some p → p.Ok s'.manager) (hth : s.SameThreads s')
    (hr : s'.Reached (some ph')) : Inv s' ∧ (s.Failed ↔ s'.Failed) := by
  refine ⟨⟨hok, ?_, by rw [hc']; exact hr⟩, hth.failed_iff⟩
  intro i ph₁ h₁
  rw [hc'] at h₁
  obtain ⟨rfl, rfl⟩ : t = .worker i ∧ ph' = ph₁ := by simpa using h₁
  obtain ⟨hstop, p, hp, hin⟩ := hI.owner i ph hc
  obtain ⟨p', hp', hth'⟩ := hth.exists hp
  exact ⟨hph hstop, p', hp', hth' ▸ hin⟩

theorem Inv.return (hok : ∀ p, s.pool = some p → p.Ok s.manager) (hs : s.Steady) :
    Inv (s.leave .caller) :=
  ⟨hok, nofun, hs⟩

/-- The worker behind the mutex is in its error branch, in a pool that is up. -/
theorem Inv.caller_of (hI : Inv s) (hc : s.critical = some (t, ph))
    (h : ∀ (i : Nat) p, s.pool = some p → p.threads[i]? = some Worker.inside → ph.ofStop = true →
      False) :
    t = .caller := by
  cases t with
  | caller => rfl
  | worker i =>
    obtain ⟨hstop, p, hp, hin⟩ := hI.owner i ph hc
    exact (h i p hp hin hstop).elim

/-- **One operation behind the mutex.** No error branch returns by it. -/
theorem Inv.criticalStep (hI : Inv s) (hc : s.critical = some (t, ph))
    (h : criticalStep n s t ph = some s') : Inv s' ∧ (s.Failed ↔ s'.Failed) := by
  have hr : s.Reached (some ph) := by
    have := hI.reached
    rwa [hc] at this
  cases ph with
  | interruptQueue =>
    cases h
    exact hI.advance hc rfl id hI.pool rfl hr
  | casStop =>
    cases h
    split
    next hrun =>
      refine hI.advance hc rfl id hI.pool rfl ?_
      rcases hr with ⟨p, hp, -, hstop⟩ | ⟨-, hrun', -⟩
      · exact ⟨p, hp, rfl, hstop⟩
      · rw [hrun] at hrun'
        cases hrun'
    · -- the flag is down between two calls only if there is no pool
      rename_i hrun
      rcases hr with ⟨-, -, hrun', -⟩ | ⟨hp, hrun', hm⟩
      · exact absurd hrun' hrun
      · obtain rfl := hI.caller_of hc (by simp [hp])
        exact ⟨Inv.return hI.pool (.inr ⟨hp, hrun', hm⟩), Iff.rfl⟩
  | interruptPool =>
    cases h
    obtain ⟨p, hp, hrun, hstop⟩ := hr
    have hpool : s.pool.map ({ · with interrupted := true }) =
        some { p with interrupted := true } := by rw [hp]; rfl
    refine hI.advance hc rfl id ?_ (by simp [State.SameThreads, hp]) ?_
    · intro p' hp'
      obtain rfl := mem_unique hpool hp'
      obtain ⟨h₁, h₂, h₃⟩ := hI.pool p hp
      exact ⟨h₁, h₂, h₃⟩
    · exact ⟨_, ⟨hpool, hrun, hstop⟩, rfl⟩
  | interruptAgain =>
    cases h
    obtain ⟨p, hp, hint⟩ := hr
    exact hI.advance hc rfl id hI.pool rfl ⟨p, hp, hint, rfl⟩
  | joinManager =>
    simp only [Creator.criticalStep] at h
    split at h
    · cases h
      obtain ⟨p, hp, -⟩ := hr
      exact hI.advance hc rfl id hI.pool rfl ⟨p, hp, ‹_›⟩
    · cases h
  | waitAll =>
    obtain ⟨p, hp, hm⟩ := hr
    obtain ⟨p', hp', h⟩ := bind_eq_some_iff.1 h
    obtain rfl := mem_unique hp.1 hp'
    split at h
    · cases h
      exact hI.advance hc rfl id hI.pool rfl ⟨p, hp, hm, ‹_›⟩
    · cases h
  | stopPool =>
    cases h
    obtain ⟨p, ⟨hp, hrun, -⟩, hm, hact⟩ := hr
    have hpool : s.pool.map ({ · with stopRequested := true, interrupted := true }) =
        some { p with stopRequested := true, interrupted := true } := by rw [hp]; rfl
    refine hI.advance hc rfl id ?_ (by simp [State.SameThreads, hp]) ?_
    · intro p' hp'
      obtain rfl := mem_unique hpool hp'
      obtain ⟨h₁, h₂, -⟩ := hI.pool p hp
      exact ⟨h₁, h₂, fun _ => rfl⟩
    · exact ⟨_, hpool, rfl, hrun, hm, hact⟩
  | joinWorkers =>
    obtain ⟨p, hp, -, hrun, hm, -⟩ := hr
    obtain ⟨p', hp', h⟩ := bind_eq_some_iff.1 h
    obtain rfl := mem_unique hp hp'
    split at h
    next hended =>
      cases h
      have hcaller : t = .caller := by
        refine hI.caller_of hc ?_
        intro i p' hp' hin _
        obtain rfl := mem_unique hp hp'
        cases hended _ (mem_of_getElem? hin)
      subst hcaller
      refine ⟨Inv.return nofun (.inr ⟨rfl, hrun, hm⟩), ?_, nofun⟩
      rintro ⟨p', hp', w, hw, hfail⟩
      obtain rfl := mem_unique hp hp'
      rw [hended w hw] at hfail
      cases hfail
    · cases h
  | interruptDrain =>
    cases h
    exact hI.advance hc rfl nofun hI.pool rfl ⟨hr, rfl⟩
  | drainQueue =>
    cases h
    exact hI.advance hc rfl nofun hI.pool rfl hr
  | waitDrain =>
    simp only [Creator.criticalStep] at h
    split at h
    · cases h
      exact hI.advance hc rfl nofun hI.pool rfl hr.1
    · cases h
  | reactivate =>
    cases h
    obtain rfl := hI.caller_of hc (fun _ _ _ _ h => nomatch h)
    exact ⟨Inv.return hI.pool hr, Iff.rfl⟩
  | casStart =>
    cases h
    obtain rfl := hI.caller_of hc (fun _ _ _ _ h => nomatch h)
    split
    · exact ⟨Inv.return hI.pool hr, Iff.rfl⟩
    next hrun =>
      refine hI.advance hc rfl nofun hI.pool rfl ?_
      rcases hr with ⟨-, -, hrun', -⟩ | ⟨hp, -, hm⟩
      · exact absurd hrun' hrun
      · exact ⟨hp, rfl, hm⟩
  | startPool =>
    cases h
    obtain rfl := hI.caller_of hc (fun _ _ _ _ h => nomatch h)
    obtain ⟨hp, hrun, -⟩ := hr
    refine ⟨Inv.return ?_ (.inl ⟨_, rfl, hrun, rfl⟩), ?_, ?_⟩
    · intro p hp'
      cases hp'
      refine ⟨?_, Nat.zero_le _, ?_⟩
      · simp [Worker.slots, Manager.slots]
      · simp
    · rintro ⟨p, hp', -⟩
      rw [hp] at hp'
      cases hp'
    · rintro ⟨p, ⟨⟩, w, hw, hfail⟩
      rw [eq_of_mem_replicate hw] at hfail
      cases hfail

/-! ## Runs -/

theorem Inv.steady (hI : Inv s) (hnone : s.critical.isNone = true) : s.Steady := by
  have := hI.reached
  rwa [isNone_iff_eq_none.1 hnone] at this

/-- **One step.** It keeps the invariant, and no error branch returns by it. -/
theorem Inv.step {l : Label} (hI : Inv s) (h : step n s l = some s') :
    Inv s' ∧ (s.Failed → s'.Failed) := by
  cases l with
  | request | call c =>
    cases h
    exact ⟨⟨hI.pool, hI.owner, hI.reached⟩, id⟩
  | enter i =>
    simp only [Creator.step] at h
    split at h
    · have hsteady := hI.steady ‹_›
      obtain ⟨c, -, rfl⟩ := map_eq_some_iff.1 h
      refine ⟨⟨hI.pool, nofun, ?_⟩, id⟩
      cases c <;> exact hsteady
    · cases h
  | enterWorker i =>
    simp only [Creator.step] at h
    split at h
    · have hsteady := hI.steady ‹_›
      obtain ⟨p, hp, h⟩ := bind_eq_some_iff.1 h
      split at h
      next hi =>
        cases h
        have hlt := (List.getElem?_eq_some_iff.1 hi).1
        refine ⟨⟨?_, ?_, ?_⟩, ?_⟩
        · intro p' hp'
          cases hp'
          exact (hI.pool p hp).set hi rfl le_rfl (by simp)
        · rintro j ph ⟨⟩
          exact ⟨rfl, _, rfl, getElem?_set_self hlt⟩
        · rcases hsteady with ⟨p', hp', hrun, hstop⟩ | ⟨hp', -⟩
          · obtain rfl := mem_unique hp hp'
            exact .inl ⟨_, rfl, hrun, hstop⟩
          · rw [hp] at hp'
            cases hp'
        · intro _
          exact ⟨_, rfl, .inside, mem_of_getElem? (getElem?_set_self hlt), rfl⟩
      · cases h
    · cases h
  | critical =>
    obtain ⟨⟨t, ph⟩, hc, h⟩ := bind_eq_some_iff.1 h
    obtain ⟨hI', hiff⟩ := hI.criticalStep hc h
    exact ⟨hI', hiff.1⟩
  | manager found =>
    obtain ⟨hI', hth⟩ := hI.managerStep h
    exact ⟨hI', hth.failed⟩
  | worker i throws =>
    obtain ⟨p, hp, h⟩ := bind_eq_some_iff.1 h
    obtain ⟨p', hp', rfl⟩ := map_eq_some_iff.1 h
    refine ⟨hI.workerStep hp hp', ?_⟩
    rintro ⟨p₁, hp₁, w, hw, hfail⟩
    obtain rfl := mem_unique hp hp₁
    exact ⟨p', rfl, workerStep_failed hp' hw hfail⟩

theorem Inv.run (h : Run (Creator.step n) (fun _ _ => True) State.initial s) : Inv s :=
  h.invariant Inv.initial fun hI _ hl => (hI.step hl).1

/-- **The error branch never returns.** -/
theorem Inv.failed_run (hI : Inv s) (hf : s.Failed) (h : Run (Creator.step n) (fun _ _ => True) s s') :
    s'.Failed :=
  (h.invariant (I := fun a => Inv a ∧ a.Failed) ⟨hI, hf⟩
    fun ha _ hl => ⟨(ha.1.step hl).1, (ha.1.step hl).2 ha.2⟩).2

end Step

end Sirius.Creator
