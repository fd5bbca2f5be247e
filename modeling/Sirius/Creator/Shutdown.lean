import Sirius.Lib.Runs
import Sirius.Lib.ThreadPool

/-!
# Shutting the task creator down

`task_creator` (`src/creator/task_creator.cpp`) has a manager thread that takes a slot of a bounded
pool, pops a request and hands the creation of its tasks to a worker of the pool together with the
slot (`src/include/exec/bounded_thread_pool.hpp`). Four functions, `stop`, `stop_thread_pool`,
`drain_pending_tasks` and `start_thread_pool`, run under `_global_state_mutex`; a creation function
that throws calls `stop` itself, from its worker.

Every label of a run is one operation of one thread. Since at most one thread is behind the mutex,
the mutex holds that thread's place in its function. Of `terminate_query` only the return is
modelled, so that a call that does not return here does not return with its waits either.
-/

namespace Sirius.Creator

open Lib

/-! ## Threads -/

/-- The functions that take `_global_state_mutex`. -/
inductive Call where
  | stop
  | stopThreadPool
  | drainPendingTasks
  | startThreadPool
  deriving DecidableEq, Repr

inductive Phase where
  /-- `stop`, in front of `do_stop_thread_pool`. -/
  | interruptQueue
  /-- `do_stop_thread_pool`. -/
  | casStop
  | interruptPool
  | interruptAgain
  | joinManager
  | waitAll
  | stopPool
  | joinWorkers
  /-- `drain_pending_tasks`. -/
  | interruptDrain
  | drainQueue
  | waitDrain
  | reactivate
  /-- `start_thread_pool`. -/
  | casStart
  | startPool
  deriving DecidableEq, Repr

def Call.entry : Call → Phase
  | .stop => .interruptQueue
  | .stopThreadPool => .casStop
  | .drainPendingTasks => .interruptDrain
  | .startThreadPool => .casStart

/-- Who is behind the mutex: a thread from outside, or a worker in the error branch. -/
inductive Thread where
  | caller
  | worker (i : Nat)
  deriving DecidableEq, Repr

/-- The manager thread in `manager_loop`. It holds a slot at `pop` and `resolve`. -/
inductive Manager where
  | check
  | reserve
  | pop
  | resolve
  | done
  deriving DecidableEq, Repr

/-- A worker of the pool. From `create` on it holds the slot of its creation function. -/
inductive Worker where
  | idle
  | create
  /-- In the error branch: in `terminate_query`, at the mutex of `stop`, behind it. -/
  | terminate
  | stopping
  | inside
  | ended
  deriving DecidableEq, Repr

/-! ## State -/

/-- The members of `bounded_thread_pool`. Its capacity is the number of its threads. -/
structure Pool where
  interrupted : Bool := false
  stopRequested : Bool := false
  active : Nat := 0
  workQueue : Nat := 0
  threads : List Worker
  deriving DecidableEq, Repr

def Pool.set (p : Pool) (i : Nat) (w : Worker) : Pool :=
  { p with threads := p.threads.set i w }

def Pool.releaseSlot (p : Pool) : Pool :=
  { p with active := p.active - 1 }

/-- The members of `task_creator`, the calls that wait at the mutex and the one behind it. -/
structure State where
  running : Bool := false
  queueActive : Bool := true
  queue : Nat := 0
  pool : Option Pool := none
  manager : Manager := .done
  waiting : List Call := []
  critical : Option (Thread × Phase) := none
  deriving DecidableEq, Repr

/-- The call behind the mutex returns. A worker's creation function returns with it, which gives its
slot back. -/
def State.leave (s : State) : Thread → State
  | .caller => { s with critical := none }
  | .worker i => { s with critical := none, pool := s.pool.map fun p => (p.set i .idle).releaseSlot }

inductive Label where
  /-- `schedule` on any thread. -/
  | request
  /-- A thread calls one of the functions, or gets the mutex for a call that waits. -/
  | call (c : Call)
  | enter (i : Nat)
  | enterWorker (i : Nat)
  /-- The thread behind the mutex. -/
  | critical
  /-- The manager; `found` is what `get_operator_for_next_task` finds. -/
  | manager (found : Bool)
  /-- A worker; `throws` is whether its creation function throws. -/
  | worker (i : Nat) (throws : Bool)
  deriving DecidableEq, Repr

/-! ## Steps -/

def managerStep (s : State) (found : Bool) : Option State :=
  match s.manager with
  | .check => some { s with manager := if s.running then .reserve else .done }
  | .reserve => s.pool.bind fun p =>
    if p.interrupted || p.stopRequested then some { s with manager := .done }
    else if p.active < p.threads.length then
      some { s with pool := some { p with active := p.active + 1 }, manager := .pop }
    else none
  | .pop => s.pool.bind fun p =>
    -- `pop` gives up as soon as the queue is interrupted, and the loop drops the slot
    if !s.queueActive then some { s with pool := some p.releaseSlot, manager := .check }
    else if s.queue = 0 then none
    else some { s with queue := s.queue - 1, manager := .resolve }
  | .resolve => s.pool.bind fun p =>
    if found then
      some { s with pool := some { p with workQueue := p.workQueue + 1 }, manager := .check }
    else some { s with pool := some p.releaseSlot, manager := .check }
  | .done => none

def workerStep (p : Pool) (i : Nat) (throws : Bool) : Option Pool :=
  p.threads[i]?.bind fun
    | .idle =>
      if p.workQueue = 0 then if p.stopRequested then some (p.set i .ended) else none
      else some ({ p with workQueue := p.workQueue - 1 }.set i .create)
    | .create => some (if throws then p.set i .terminate else (p.set i .idle).releaseSlot)
    | .terminate => some (p.set i .stopping)
    | .stopping | .inside | .ended => none

/-- The operation `ph` of the thread `t` behind the mutex, in a creator with `n` threads. -/
def criticalStep (n : Nat) (s : State) (t : Thread) : Phase → Option State
  | .interruptQueue => some { s with queueActive := false, critical := some (t, .casStop) }
  | .casStop =>
    some (if s.running then { s with running := false, critical := some (t, .interruptPool) }
      else s.leave t)
  | .interruptPool =>
    some { s with
      pool := s.pool.map ({ · with interrupted := true }), critical := some (t, .interruptAgain) }
  | .interruptAgain => some { s with queueActive := false, critical := some (t, .joinManager) }
  | .joinManager =>
    if s.manager = .done then some { s with critical := some (t, .waitAll) } else none
  | .waitAll => s.pool.bind fun p =>
    if p.active = 0 then some { s with critical := some (t, .stopPool) } else none
  | .stopPool =>
    some { s with
      pool := s.pool.map ({ · with stopRequested := true, interrupted := true })
      critical := some (t, .joinWorkers) }
  | .joinWorkers => s.pool.bind fun p =>
    if ∀ w ∈ p.threads, w = .ended then some ({ s with pool := none }.leave t) else none
  | .interruptDrain => some { s with queueActive := false, critical := some (t, .drainQueue) }
  | .drainQueue => some { s with queue := 0, critical := some (t, .waitDrain) }
  | .waitDrain =>
    if ∀ p ∈ s.pool, p.active = 0 then some { s with critical := some (t, .reactivate) } else none
  | .reactivate => some ({ s with queueActive := true }.leave t)
  | .casStart =>
    some (if s.running then s.leave t
      else { s with running := true, critical := some (t, .startPool) })
  | .startPool =>
    some ({ s with
      queueActive := true
      pool := some { threads := List.replicate n .idle }
      manager := .check }.leave t)

def step (n : Nat) (s : State) : Label → Option State
  | .request => some { s with queue := if s.queueActive then s.queue + 1 else s.queue }
  | .call c => some { s with waiting := s.waiting ++ [c] }
  | .enter i =>
    if s.critical.isNone then
      s.waiting[i]?.map fun c =>
        { s with waiting := s.waiting.eraseIdx i, critical := some (.caller, c.entry) }
    else none
  | .enterWorker i =>
    if s.critical.isNone then
      s.pool.bind fun p =>
        if p.threads[i]? = some .stopping then
          some { s with
            pool := some (p.set i .inside), critical := some (.worker i, Call.stop.entry) }
        else none
    else none
  | .critical => s.critical.bind fun (t, ph) => criticalStep n s t ph
  | .manager found => managerStep s found
  | .worker i throws =>
    s.pool.bind fun p => (workerStep p i throws).map fun p' => { s with pool := some p' }

def State.initial : State := {}

/-! ## What the calls wait for -/

def Worker.failed : Worker → Bool
  | .terminate | .stopping | .inside => true
  | .idle | .create | .ended => false

/-- Some creation function has thrown and its error branch has not returned. -/
def State.Failed (s : State) : Prop := ∃ p ∈ s.pool, ∃ w ∈ p.threads, w.failed = true

structure State.Returned (s : State) : Prop where
  waiting : s.waiting = []
  critical : s.critical = none
  error : ¬ s.Failed

end Sirius.Creator
